import XPath.Atomic.Cast
import XPath.Proofs.Text.Words

/-!
# Resolving qualified names

A lexical name is a local name, or a qualifier and a local name with one colon between them
(`QName.Spells`). A text that is none is refused as malformed, and one with a qualifier that is not bound
for want of a namespace; every other text gives the name that it spells, and that name is resolved again
from what it is written as (`QName.resolve_spells`).
-/

namespace XPath.QName

open Text

/-- The text spells a local name, with or without a qualifier in front of it. -/
inductive Spells : List Char → Option (List Char) → List Char → Prop
  | unqualified {l : List Char} (hl : isNCName l) : Spells l none l
  | qualified {p l : List Char} (hp : isNCName p) (hl : isNCName l) : Spells (p ++ ':' :: l) (some p) l

variable {t l : List Char} {p : Option (List Char)} {uriOf : String → Option String} {s : String}

/-! ## Spelling -/

namespace Spells

/-- The first colon is the one that separates the parts. -/
theorem cutAt_eq (h : Spells t p l) : cutAt ':' t = p.map (·, l) ∧ (p = none → t = l) := by
  cases h with
  | unqualified hl => exact ⟨cutAt_eq_none_iff.2 (colon_notMem_of_isNCName hl), fun _ => rfl⟩
  | qualified hp hl => exact ⟨cutAt_append (colon_notMem_of_isNCName hp), nofun⟩

theorem isWord (h : Spells t p l) : IsWord t := by
  cases h with
  | unqualified hl => exact isWord_of_isNCName hl
  | qualified hp hl =>
    obtain ⟨hne, hblanks⟩ := isWord_of_isNCName hp
    refine ⟨List.append_ne_nil_of_left_ne_nil hne _, fun c hc => ?_⟩
    rcases List.mem_append.1 hc with hc | hc
    · exact hblanks c hc
    · rcases List.mem_cons.1 hc with rfl | hc
      · decide
      · exact (isWord_of_isNCName hl).2 c hc

theorem collapse_eq (h : Spells t p l) : collapse t = t := by
  have hwords : words (joinWith ' ' [t]) = [t] := words_joinWith (by simpa using h.isWord)
  rw [collapse, show words t = [t] from hwords, joinWith]

/-- A name is written as it is spelled. -/
theorem label_eq (h : Spells t p l) (uri : Option String) :
    (⟨p.map String.ofList, String.ofList l, uri⟩ : QName).label.toList = t := by
  cases h with
  | unqualified hl => simp [label]
  | @qualified p l hp hl =>
    have hne : String.ofList p ≠ "" := fun hempty => by
      obtain rfl : p = [] := by simpa using congrArg String.toList hempty
      cases hp
    simp [label, hne]

end Spells

/-! ## Resolution -/

def unbound (qualifier : List Char) : Error :=
  ⟨.FONS0004, "no namespace is bound to prefix '" ++ String.ofList qualifier ++ "'"⟩

/-- The name that is spelled, in the namespace of its qualifier. -/
def spelled (uriOf : String → Option String) (l : List Char) : Option (List Char) → Except Error QName
  | none => .ok ⟨none, String.ofList l, uriOf ""⟩
  | some p =>
    match uriOf (String.ofList p) with
    | some uri => .ok ⟨some (String.ofList p), String.ofList l, some uri⟩
    | none => .error (unbound p)

theorem resolveBy_of_spells (h : Spells (collapse s.toList) p l) :
    resolveBy uriOf s = spelled uriOf l p := by
  obtain ⟨hcut, htext⟩ := h.cutAt_eq
  rw [resolveBy, hcut]
  generalize collapse s.toList = t at h htext
  cases h with
  | unqualified hl => simp [spelled, hl]
  | qualified hp hl =>
    simp only [Option.map_some, hp, hl, spelled]
    rfl

/-- Any other text is malformed. -/
theorem resolveBy_of_not_spells (h : ¬∃ p l, Spells (collapse s.toList) p l) :
    resolveBy uriOf s = .error ⟨.FORG0001, "invalid QName '" ++ s ++ "'"⟩ := by
  rw [resolveBy]
  cases hcut : cutAt ':' (collapse s.toList) with
  | none =>
    refine if_pos ?_
    by_contra hnames
    exact h ⟨none, _, .unqualified (by simpa using hnames)⟩
  | some parts =>
    obtain ⟨p, l⟩ := parts
    obtain ⟨htext, -⟩ := cutAt_eq_some hcut
    refine if_pos ?_
    by_contra hnames
    obtain ⟨hl, hp⟩ : isNCName l ∧ isNCName p := by simpa using hnames
    exact h ⟨some p, l, htext ▸ Spells.qualified hp hl⟩

/-- What is resolved is the name that is spelled, and its qualifier is bound. -/
theorem resolveBy_eq_ok_iff {q : QName} :
    resolveBy uriOf s = .ok q ↔
      Spells (collapse s.toList) (q.qualifier.map String.toList) q.localName.toList ∧
      q.uri = uriOf (q.qualifier.getD "") ∧ (q.qualifier.isSome → q.uri.isSome) := by
  constructor
  · intro hq
    by_cases h : ∃ p l, Spells (collapse s.toList) p l
    · obtain ⟨p, l, h⟩ := h
      rw [resolveBy_of_spells h] at hq
      cases p with
      | none =>
        obtain rfl := Except.ok.inj hq
        exact ⟨by simpa using h, rfl, nofun⟩
      | some p =>
        rw [spelled] at hq
        split at hq
        · next uri huri =>
          obtain rfl := Except.ok.inj hq
          exact ⟨by simpa using h, huri.symm, fun _ => rfl⟩
        · cases hq
    · rw [resolveBy_of_not_spells h] at hq
      cases hq
  · rintro ⟨h, huri, hbound⟩
    rw [resolveBy_of_spells h]
    obtain ⟨_ | p, l, uri⟩ := q
    · have huri : uri = uriOf "" := huri
      simp [spelled, huri]
    · obtain ⟨uri, rfl⟩ := Option.isSome_iff_exists.1 (hbound rfl)
      have huri : uriOf p = some uri := huri.symm
      simp [spelled, huri]

/-- A name that is spelled is refused if its qualifier is not bound. -/
theorem resolveBy_eq_error_iff {e : Error} (h : Spells (collapse s.toList) p l) :
    resolveBy uriOf s = .error e ↔
      ∃ p', p = some p' ∧ uriOf (String.ofList p') = none ∧ e = unbound p' := by
  rw [resolveBy_of_spells h]
  cases p with
  | none => simp [spelled]
  | some p =>
    rw [spelled]
    cases huri : uriOf (String.ofList p) with
    | none => simp [huri, eq_comm]
    | some uri => simp [huri]

theorem malformed_iff :
    (∃ e, resolveBy uriOf s = .error e ∧ e.code = .FORG0001) ↔ ¬∃ p l, Spells (collapse s.toList) p l := by
  constructor
  · rintro ⟨e, he, hcode⟩ ⟨p, l, h⟩
    obtain ⟨p', -, -, rfl⟩ := (resolveBy_eq_error_iff h).1 he
    cases hcode
  · exact fun h => ⟨_, resolveBy_of_not_spells h, rfl⟩

theorem lacksNamespace_iff :
    (∃ e, resolveBy uriOf s = .error e ∧ e.code = .FONS0004) ↔
      ∃ p l, Spells (collapse s.toList) (some p) l ∧ uriOf (String.ofList p) = none := by
  constructor
  · rintro ⟨e, he, hcode⟩
    by_cases h : ∃ p l, Spells (collapse s.toList) p l
    · obtain ⟨p, l, h⟩ := h
      obtain ⟨p', rfl, hnone, -⟩ := (resolveBy_eq_error_iff h).1 he
      exact ⟨p', l, h, hnone⟩
    · rw [resolveBy_of_not_spells h] at he
      cases he
      cases hcode
  · rintro ⟨p, l, h, hnone⟩
    exact ⟨unbound p, (resolveBy_eq_error_iff h).2 ⟨p, rfl, hnone, rfl⟩, rfl⟩

theorem resolved_iff :
    (∃ q, resolveBy uriOf s = .ok q) ↔
      ∃ p l, Spells (collapse s.toList) p l ∧ ∀ p' ∈ p, uriOf (String.ofList p') ≠ none := by
  constructor
  · rintro ⟨q, hq⟩
    obtain ⟨h, huri, hbound⟩ := resolveBy_eq_ok_iff.1 hq
    refine ⟨_, _, h, fun p' hp' hnone => ?_⟩
    obtain ⟨p, hp, rfl⟩ := Option.map_eq_some_iff.1 hp'
    have := hbound (hp ▸ rfl)
    rw [huri, hp, Option.getD_some, ← String.ofList_toList (s := p), hnone] at this
    cases this
  · rintro ⟨p, l, h, hbound⟩
    cases hr : resolveBy uriOf s with
    | ok q => exact ⟨q, rfl⟩
    | error e =>
      obtain ⟨p', rfl, hnone, -⟩ := (resolveBy_eq_error_iff h).1 hr
      exact absurd hnone (hbound p' rfl)

/-- A name is written as the text that it was read from, and read again from that. -/
theorem label_of_resolveBy {q : QName} (hq : resolveBy uriOf s = .ok q) :
    q.label.toList = collapse s.toList ∧ resolveBy uriOf q.label = .ok q := by
  obtain ⟨h, huri, hbound⟩ := resolveBy_eq_ok_iff.1 hq
  have hlabel : q.label.toList = collapse s.toList := by
    have := h.label_eq q.uri
    simpa [Option.map_map, Function.comp_def] using this
  have hagain : collapse q.label.toList = collapse s.toList := by rw [hlabel, h.collapse_eq]
  exact ⟨hlabel, resolveBy_eq_ok_iff.2 ⟨hagain ▸ h, huri, hbound⟩⟩

/-- A text that does not spell a name, blanks around it apart, is malformed; of the names that are spelled,
those with a qualifier that is not bound lack a namespace; all others are resolved, by the namespace of
their qualifier. They are written as they are spelled, and resolved again from that. -/
theorem resolve_spells (uriOf : String → Option String) (s : String) :
    ((∃ e, resolveBy uriOf s = .error e ∧ e.code = .FORG0001) ↔
      ¬∃ p l, Spells (collapse s.toList) p l) ∧
    ((∃ e, resolveBy uriOf s = .error e ∧ e.code = .FONS0004) ↔
      ∃ p l, Spells (collapse s.toList) (some p) l ∧ uriOf (String.ofList p) = none) ∧
    ((∃ q, resolveBy uriOf s = .ok q) ↔
      ∃ p l, Spells (collapse s.toList) p l ∧ ∀ p' ∈ p, uriOf (String.ofList p') ≠ none) ∧
    ∀ q, resolveBy uriOf s = .ok q →
      Spells (collapse s.toList) (q.qualifier.map String.toList) q.localName.toList ∧
      q.label.toList = collapse s.toList ∧
      q.uri = uriOf (q.qualifier.getD "") ∧
      resolveBy uriOf q.label = .ok q := by
  refine ⟨malformed_iff, lacksNamespace_iff, resolved_iff, fun q hq => ?_⟩
  obtain ⟨h, huri, -⟩ := resolveBy_eq_ok_iff.1 hq
  obtain ⟨hlabel, hagain⟩ := label_of_resolveBy hq
  exact ⟨h, hlabel, huri, hagain⟩

/-- Blanks around a qualified name, and a second colon within one. -/
example : resolveBy Namespaces.minimal.resolve "  xml:lang " = .ok ⟨some "xml", "lang", some Uri.xml⟩ ∧
    resolveBy Namespaces.minimal.resolve "a:b:c" = .error ⟨.FORG0001, "invalid QName 'a:b:c'"⟩ := by
  decide +kernel

end XPath.QName
