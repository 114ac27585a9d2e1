import Mathlib.Data.List.Forall2
import XPath.Lazy.Conjunction

/-!
# Verdicts of conjunctions

A conjunction is resumed any number of times, whatever it answers. As long as it has not said no, its
answers are those that its parts give while they are being waited for, part after part, and it says yes
once all of them have (`Conjunction.Stage`, `Conjunction.Resumed.stage`). That it has said no is not kept:
the conjunction with nothing left to ask says yes from then on, so that the verdicts of a run are to be
believed up to the first one only (`Conjunction.verdicts`, `Conjunction.yes_after_no`).
-/

namespace XPath

/-- The part can be created, gives these answers when it is resumed, none of them a verdict, and gives its
verdict when it is resumed once more. -/
def Part.Says (part : Part) (waits : List (Attempt Bool)) (verdict : Bool) : Prop :=
  ∃ answers, part = .created answers ∧ waits = (List.range waits.length).map answers ∧
    (∀ b, .ready b ∉ waits) ∧ answers waits.length = .ready verdict

theorem Part.Says.no_verdict {part : Part} {waits : List (Attempt Bool)} {verdict : Bool}
    (hp : part.Says waits verdict) (b : Bool) : .ready b ∉ waits := by
  obtain ⟨-, -, -, hnone, -⟩ := hp
  exact hnone b

namespace Conjunction

/-- The conjunction of the parts is resumed as often as there are answers. -/
inductive Resumed (parts : List Part) : List (Attempt Bool) → Conjunction → Prop
  | start : Resumed parts [] (.ofParts parts)
  | resume {l : List (Attempt Bool)} {c c' : Conjunction} {o : Attempt Bool} :
      Resumed parts l c → c.resume = (o, c') → Resumed parts (l ++ [o]) c'

/-- A part that has given these answers since its turn came, and no verdict: how often it has been resumed,
if it has been created, and how many attempts were made to create it. -/
inductive Underway : Part → List (Attempt Bool) → Option Nat → Nat → Prop
  | fresh {part : Part} : Underway part [] none 0
  | refused {e : Error} (n : Nat) :
      Underway (.refused e) (List.replicate n (.failed e)) none n
  | resumed {answers : Nat → Attempt Bool} (n : Nat) :
      (∀ b, .ready b ∉ (List.range n).map answers) →
      Underway (.created answers) ((List.range n).map answers) (some n) 1

/-- Where a conjunction of the parts stands after these answers. -/
inductive Stage (parts : List Part) : List (Attempt Bool) → Conjunction → Prop
  | underway {before after : List Part} {part : Part} {waits : List (List (Attempt Bool))}
      {current : List (Attempt Bool)} {resumed : Option Nat} {attempts : Nat} :
      parts = before ++ part :: after → List.Forall₂ (fun part ws => part.Says ws true) before waits →
      Underway part current resumed attempts →
      Stage parts (waits.flatten ++ current) ⟨part :: after, resumed, before.length + attempts⟩
  | yes {waits : List (List (Attempt Bool))} (n : Nat) :
      List.Forall₂ (fun part ws => part.Says ws true) parts waits →
      Stage parts (waits.flatten ++ List.replicate n (.ready true)) ⟨[], none, parts.length⟩
  | no {before after : List Part} {part : Part} {waits : List (List (Attempt Bool))}
      {current : List (Attempt Bool)} (n : Nat) :
      parts = before ++ part :: after → List.Forall₂ (fun part ws => part.Says ws true) before waits →
      part.Says current false →
      Stage parts (waits.flatten ++ current ++ .ready false :: List.replicate n (.ready true))
        ⟨[], none, before.length + 1⟩

variable {parts before after : List Part} {part : Part} {waits : List (List (Attempt Bool))}
  {current os : List (Attempt Bool)} {resumed : Option Nat} {attempts creations : Nat}
  {c : Conjunction} {answers : Nat → Attempt Bool}

/-! ## One resume -/

/-- A part that can be created is asked where it was left, and counts as one that has been created. -/
theorem run_created (hu : Underway (.created answers) current resumed attempts) :
    run (.created answers :: after) resumed (creations + attempts) =
      match answers current.length with
      | .ready true => run after none (creations + 1)
      | .ready false => (.ready false, ⟨[], none, creations + 1⟩)
      | o => (o, ⟨.created answers :: after, some (current.length + 1), creations + 1⟩) := by
  cases hu with
  | fresh => rfl
  | resumed n =>
    rw [run, List.length_map, List.length_range]
    rfl

/-- A part that can be created has given the answers that it gives. -/
theorem Underway.eq_map (hu : Underway (.created answers) current resumed attempts) :
    current = (List.range current.length).map answers := by
  cases hu with
  | fresh => rfl
  | resumed n => rw [List.length_map, List.length_range]

theorem Underway.no_verdict (hu : Underway part current resumed attempts) (b : Bool) :
    .ready b ∉ current := by
  cases hu with
  | fresh => exact List.not_mem_nil
  | refused n => exact fun hmem => nomatch List.eq_of_mem_replicate hmem
  | resumed n hnone => exact hnone b

/-- The part with one more answer. -/
theorem Underway.answered (hu : Underway (.created answers) current resumed attempts)
    (ho : ∀ b, answers current.length ≠ .ready b) :
    Underway (.created answers) (current ++ [answers current.length]) (some (current.length + 1)) 1 := by
  have hall : current ++ [answers current.length] = (List.range (current.length + 1)).map answers := by
    rw [List.range_succ, List.map_append, ← hu.eq_map, List.map_singleton]
  have hnone : ∀ b, .ready b ∉ (List.range (current.length + 1)).map answers := by
    intro b hmem
    rw [← hall] at hmem
    rcases List.mem_append.1 hmem with hmem | hmem
    · exact hu.no_verdict b hmem
    · exact ho b (List.mem_singleton.1 hmem).symm
  rw [hall]
  exact .resumed _ hnone

/-- A part that now gives its verdict. -/
theorem Underway.gives {b : Bool} (hu : Underway (.created answers) current resumed attempts)
    (hb : answers current.length = .ready b) : Part.Says (.created answers) current b :=
  ⟨answers, rfl, hu.eq_map, hu.no_verdict, hb⟩

/-- The part under way is asked. If it says yes, the parts after it are. -/
theorem Stage.ask (hparts : parts = before ++ part :: after)
    (hbefore : List.Forall₂ (fun part ws => part.Says ws true) before waits)
    (hu : Underway part current resumed attempts)
    (hafter : part.Says current true → Stage parts
      ((waits ++ [current]).flatten ++ [(Conjunction.run after none (before.length + 1)).1])
      (Conjunction.run after none (before.length + 1)).2) :
    Stage parts (waits.flatten ++ current ++
        [(Conjunction.run (part :: after) resumed (before.length + attempts)).1])
      (Conjunction.run (part :: after) resumed (before.length + attempts)).2 := by
  cases part with
  | refused e =>
    obtain ⟨rfl, rfl⟩ : current = List.replicate attempts (.failed e) ∧ resumed = none := by
      cases hu <;> exact ⟨rfl, rfl⟩
    have hmore := Underway.refused (e := e) (attempts + 1)
    rw [List.replicate_succ'] at hmore
    rw [List.append_assoc]
    exact .underway hparts hbefore hmore
  | created answers =>
    rw [run_created hu]
    split
    next hyes =>
      have hstage := hafter (hu.gives hyes)
      rwa [List.flatten_append, List.flatten_singleton] at hstage
    next hno => exact .no 0 hparts hbefore (hu.gives hno)
    next hyes hno =>
      rw [List.append_assoc]
      exact .underway hparts hbefore (hu.answered (by rintro (_ | _) <;> assumption))

/-- A resume goes on with the part under way, and with those after it as long as they say yes at once. -/
theorem Stage.run (hparts : parts = before ++ part :: after)
    (hbefore : List.Forall₂ (fun part ws => part.Says ws true) before waits)
    (hu : Underway part current resumed attempts) :
    Stage parts (waits.flatten ++ current ++
        [(Conjunction.run (part :: after) resumed (before.length + attempts)).1])
      (Conjunction.run (part :: after) resumed (before.length + attempts)).2 := by
  induction after generalizing before part waits current resumed attempts with
  | nil =>
    refine Stage.ask hparts hbefore hu fun hyes => ?_
    have hall : List.Forall₂ (fun part ws => part.Says ws true) parts (waits ++ [current]) := by
      rw [hparts]
      exact List.rel_append hbefore (.cons hyes .nil)
    have hlength : before.length + 1 = parts.length := by
      rw [hparts, List.length_append, List.length_singleton]
    rw [Conjunction.run, hlength]
    exact .yes 1 hall
  | cons next after ih =>
    refine Stage.ask hparts hbefore hu fun hyes => ?_
    have hparts' : parts = (before ++ [part]) ++ next :: after := by
      rw [hparts, List.append_assoc, List.singleton_append]
    have hstage := ih hparts' (List.rel_append hbefore (.cons hyes .nil)) Underway.fresh
    rwa [List.length_append, List.append_nil] at hstage

/-! ## Any number of resumes -/

theorem Stage.start (parts : List Part) : Stage parts [] (.ofParts parts) := by
  cases parts with
  | nil =>
    have hnone : Stage [] ([].flatten ++ List.replicate 0 (.ready true)) ⟨[], none, 0⟩ := .yes 0 .nil
    exact hnone
  | cons part after =>
    have hfirst : Stage (part :: after) ([].flatten ++ []) ⟨part :: after, none, 0⟩ :=
      .underway (List.nil_append _).symm .nil .fresh
    exact hfirst

theorem Stage.resume (hs : Stage parts os c) : Stage parts (os ++ [c.resume.1]) c.resume.2 := by
  cases hs with
  | underway hparts hbefore hu => exact Stage.run hparts hbefore hu
  | yes n hall =>
    have hmore := Stage.yes (n + 1) hall
    rwa [List.replicate_succ', ← List.append_assoc] at hmore
  | no n hparts hbefore hsaid =>
    have hmore := Stage.no (n + 1) hparts hbefore hsaid
    rwa [List.replicate_succ', ← List.cons_append, ← List.append_assoc] at hmore

theorem Resumed.stage (hrun : Resumed parts os c) : Stage parts os c := by
  induction hrun with
  | start => exact .start parts
  | resume _ hc ih =>
    have hs := ih.resume
    rwa [hc] at hs

/-- Answers given while parts are being waited for are no verdicts. -/
theorem no_verdict {verdict b : Bool}
    (hbefore : List.Forall₂ (fun part ws => Part.Says part ws verdict) before waits)
    (hcurrent : .ready b ∉ current) : .ready b ∉ waits.flatten ++ current := by
  induction hbefore with
  | nil => exact hcurrent
  | cons hsaid _ ih =>
    rw [List.flatten_cons, List.append_assoc, List.mem_append]
    exact fun hmem => hmem.elim (hsaid.no_verdict b) ih

/-- A conjunction that has said yes, and has not said no, has created every part, in order and once each; its
answers are those of the parts, one part after the other, each up to the yes of that part, and then its own.
A conjunction says no because of the first part that does, and has created no part after it; from then on it
says nothing but yes. -/
theorem verdicts (hrun : Resumed parts os c) :
    (.ready false ∉ os → .ready true ∈ os → ∃ waits n,
      List.Forall₂ (fun part ws => Part.Says part ws true) parts waits ∧
      os = waits.flatten ++ List.replicate (n + 1) (.ready true) ∧ c.creations = parts.length) ∧
    ∀ l l', os = l ++ .ready false :: l' →
      .ready true ∉ l ∧ (∀ o ∈ l', o = .ready true) ∧
      ∃ before part after waits current, parts = before ++ part :: after ∧
        List.Forall₂ (fun part ws => Part.Says part ws true) before waits ∧
        Part.Says part current false ∧ l = waits.flatten ++ current ∧
        c.creations = before.length + 1 := by
  cases hrun.stage with
  | @underway before after part waits current _ _ hparts hbefore hu =>
    have hverdict : ∀ b, Attempt.ready b ∉ waits.flatten ++ current := fun b =>
      no_verdict hbefore (hu.no_verdict b)
    refine ⟨fun _ hyes => absurd hyes (hverdict true), fun l l' hos => ?_⟩
    exact absurd (by simp [hos]) (hverdict false)
  | @yes waits n hall =>
    have hnone : ∀ b, Attempt.ready b ∉ waits.flatten := fun b => by
      simpa using no_verdict (b := b) hall List.not_mem_nil
    constructor
    · intro _ hyes
      cases n with
      | zero => simp [hnone] at hyes
      | succ n => exact ⟨_, n, hall, rfl, rfl⟩
    · intro l l' hos
      have hmem : Attempt.ready false ∈ l ++ .ready false :: l' := by simp
      rw [← hos] at hmem
      simp [hnone] at hmem
  | @no before after part waits current n hparts hbefore hsaid =>
    have hverdict : ∀ b, Attempt.ready b ∉ waits.flatten ++ current := fun b =>
      no_verdict hbefore (hsaid.no_verdict b)
    refine ⟨fun hno => absurd (by simp) hno, fun l l' hos => ?_⟩
    obtain ⟨rfl, -, rfl⟩ := (List.append_cons_inj_of_notMem (hverdict false) (by simp)).1 hos
    exact ⟨hverdict true, fun o ho => List.eq_of_mem_replicate ho, _, _, _, _, _, hparts, hbefore,
      hsaid, rfl, rfl⟩

/-- Two parts that have to be waited for, and a third one that fails when it is asked for the first time. -/
theorem verdicts_threefold :
    let late : Part := .created fun n => if n = 0 then .pending none else .ready true
    let failing : Part := .created fun n => if n = 0 then .failed (.unidentified "busy") else .ready true
    ∃ waits c, Resumed [late, late, failing]
        [.pending none, .pending none, .failed (.unidentified "busy"), .ready true, .ready true] c ∧
      List.Forall₂ (fun part ws => Part.Says part ws true) [late, late, failing] waits ∧
      c.creations = 3 := by
  intro late failing
  have hrun : Resumed [late, late, failing]
      [.pending none, .pending none, .failed (.unidentified "busy"), .ready true, .ready true] _ :=
    .resume (l := [_, _, _, _]) (.resume (l := [_, _, _]) (.resume (l := [_, _]) (.resume (l := [_])
      (.resume (l := []) .start rfl) rfl) rfl) rfl) rfl
  obtain ⟨waits, n, hall, -, hcreations⟩ := (verdicts hrun).1 (by simp) (by simp)
  exact ⟨waits, _, hrun, hall, hcreations⟩

/-- Resumed once more, a conjunction of one part says yes after that part has said no. -/
theorem yes_after_no :
    ∃ c, Resumed [.created fun _ => .ready false] [.ready false, .ready true] c ∧
      ¬∃ waits, Part.Says (.created fun _ => .ready false) waits true := by
  refine ⟨_, .resume (l := [_]) (.resume (l := []) .start rfl) rfl, ?_⟩
  rintro ⟨waits, answers, hpart, -, -, hyes⟩
  cases hpart
  cases hyes

end Conjunction

end XPath
