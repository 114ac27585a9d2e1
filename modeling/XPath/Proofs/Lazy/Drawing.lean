import XPath.Lazy.Machine

/-!
# Drawing without waiting

What a producer comes to when every answer of the host is at hand: a derivation of `Draws` follows
the machine rule by rule, but has no fuel and never suspends. A pause is passed over. The session
changes only by what is computed; nothing is noted of the questions asked. `Draws.unique` says that
a producer has one outcome in a session, `Begins` collects the items drawn first, and `Yields` those up
to the end or an error.
-/

namespace XPath

/-- The outcome of drawing from a producer. -/
inductive Draw where
  | item (v : Value) (rest : Producer)
  | finish
  | failed (e : Error)

namespace Producer

variable {h : Host}

/-- The next item of a producer in a session, and the session left behind. -/
inductive Draws (h : Host) : Producer → Session → Draw → Session → Prop
  | done {s} : Draws h .done s .finish s
  | fail {e s} : Draws h (.fail e) s (.failed e) s
  | emit {v rest s} : Draws h (.emit v rest) s (.item v rest) s
  | append_item {first second first' v s t} :
      Draws h first s (.item v first') t →
      Draws h (.append first second) s (.item v (.append first' second)) t
  | append_finish {first second s t u d} :
      Draws h first s .finish t → Draws h (second ()) t d u →
      Draws h (.append first second) s d u
  | append_failed {first second e s t} :
      Draws h first s (.failed e) t → Draws h (.append first second) s (.failed e) t
  | ask {q k a s t d} :
      h.answer q = .ok a → Draws h (k a) s d t → Draws h (.ask q k) s d t
  | ask_failed {q k e s} : h.answer q = .error e → Draws h (.ask q k) s (.failed e) s
  | fetch_item {shared i k v s t d} :
      s.look shared i = .item v → Draws h (k (some v)) s d t → Draws h (.fetch shared i k) s d t
  | fetch_finish {shared i k s t d} :
      s.look shared i = .finish → Draws h (k none) s d t → Draws h (.fetch shared i k) s d t
  | fetch_failed {shared i k e s} :
      s.look shared i = .failed e → Draws h (.fetch shared i k) s (.failed e) s
  | unread_item {shared i k cell source source' v s t u d} :
      s.look shared i = .unread cell source →
      Draws h source (s.detach cell) (.item v source') t →
      Draws h (.fetch shared i k) (t.keep cell v source') d u →
      Draws h (.fetch shared i k) s d u
  | unread_finish {shared i k cell source s t u d} :
      s.look shared i = .unread cell source →
      Draws h source (s.detach cell) .finish t → Draws h (k none) t d u →
      Draws h (.fetch shared i k) s d u
  | unread_failed {shared i k cell source e s t} :
      s.look shared i = .unread cell source →
      Draws h source (s.detach cell) (.failed e) t →
      Draws h (.fetch shared i k) s (.failed e) (t.spoil cell e)
  | length {shared k s t d} :
      Draws h (k (s.length? shared)) s d t → Draws h (.length shared k) s d t
  | share {source k s t d} :
      Draws h (k (s.allocate source).1) (s.allocate source).2 d t → Draws h (.share source k) s d t
  | gather_more {step i kept kept' source source' k v s t u d} :
      Draws h source s (.item v source') t → step i kept v = .more kept' →
      Draws h (.gather step (i + 1) kept' source' k) t d u →
      Draws h (.gather step i kept source k) s d u
  | gather_enough {step i kept kept' source source' k v s t u d} :
      Draws h source s (.item v source') t → step i kept v = .enough kept' →
      Draws h (k kept') t d u → Draws h (.gather step i kept source k) s d u
  | gather_fail {step i kept source source' k v e s t} :
      Draws h source s (.item v source') t → step i kept v = .fail e →
      Draws h (.gather step i kept source k) s (.failed e) t
  | gather_finish {step i kept source k s t u d} :
      Draws h source s .finish t → Draws h (k kept) t d u →
      Draws h (.gather step i kept source k) s d u
  | gather_failed {step i kept source k e s t} :
      Draws h source s (.failed e) t → Draws h (.gather step i kept source k) s (.failed e) t
  | forEach_item {i source source' body finish v s t u d} :
      Draws h source s (.item v source') t →
      Draws h (.append (body i v) fun _ => .forEach (i + 1) source' body finish) t d u →
      Draws h (.forEach i source body finish) s d u
  | forEach_finish {i source body finish s t u d} :
      Draws h source s .finish t → Draws h (finish i) t d u →
      Draws h (.forEach i source body finish) s d u
  | forEach_failed {i source body finish e s t} :
      Draws h source s (.failed e) t → Draws h (.forEach i source body finish) s (.failed e) t
  | apply {f c arguments result k s t d} :
      Function.invoke f c arguments = .ok result → Draws h (.share result k) s d t →
      Draws h (.apply f c arguments k) s d t
  | apply_failed {f c arguments k e s} :
      Function.invoke f c arguments = .error e → Draws h (.apply f c arguments k) s (.failed e) s
  | call {c s t d} : Draws h (Call.body c) s d t → Draws h (.call c) s d t
  | log {label items rest s t d} :
      Draws h rest (s.report label items) d t → Draws h (.log label items rest) s d t
  | pause {rest s t d} : Draws h rest s d t → Draws h (.pause rest) s d t
  | tick {rest s t d} : Draws h rest s.tick d t → Draws h (.tick rest) s d t

/-- A producer has one outcome in a session. -/
theorem Draws.unique {p : Producer} {s t t' : Session} {d d' : Draw} (a : Draws h p s d t)
    (b : Draws h p s d' t') : d = d' ∧ t = t' := by
  induction a generalizing d' t' with
  | done | fail | emit => cases b; exact ⟨rfl, rfl⟩
  | _ => cases b <;> grind

/-- All items of a producer, in order, and the error that ends them, if one does. -/
inductive Yields (h : Host) : Producer → Session → List Value → Option Error → Session → Prop
  | finish {p s t} : Draws h p s .finish t → Yields h p s [] none t
  | failed {p e s t} : Draws h p s (.failed e) t → Yields h p s [] (some e) t
  | item {p v rest s t vs e u} :
      Draws h p s (.item v rest) t → Yields h rest t vs e u → Yields h p s (v :: vs) e u

theorem Yields.unique {p : Producer} {s t t' : Session} {vs vs' : List Value} {e e' : Option Error}
    (a : Yields h p s vs e t) (b : Yields h p s vs' e' t') : vs = vs' ∧ e = e' ∧ t = t' := by
  induction a generalizing vs' e' t' with
  | finish | failed => cases b <;> grind [Draws.unique]
  | item da _ ih =>
    cases b with
    | finish db | failed db => cases (da.unique db).1
    | item db yb =>
      obtain ⟨hd, rfl⟩ := da.unique db
      cases hd
      obtain ⟨rfl, rfl, rfl⟩ := ih yb
      exact ⟨rfl, rfl, rfl⟩

/-- The items that are drawn first, and the producer and the session that they leave. -/
inductive Begins (h : Host) : Producer → Session → List Value → Producer → Session → Prop
  | nil {p s} : Begins h p s [] p s
  | item {p q v vs r s t u} :
      Draws h p s (.item v q) t → Begins h q t vs r u → Begins h p s (v :: vs) r u

theorem Begins.snoc {p q r : Producer} {s t u : Session} {vs : List Value} {v : Value}
    (hp : Begins h p s vs q t) (hd : Draws h q t (.item v r) u) : Begins h p s (vs ++ [v]) r u := by
  induction hp with
  | nil => exact .item hd .nil
  | item hd' _ ih => exact .item hd' (ih hd)

theorem Begins.yields {p q : Producer} {s t u : Session} {vs ws : List Value} {e : Option Error}
    (hp : Begins h p s vs q t) (hq : Yields h q t ws e u) : Yields h p s (vs ++ ws) e u := by
  induction hp with
  | nil => exact hq
  | item hd _ ih => exact .item hd (ih hq)

theorem Yields.begins {p : Producer} {s t : Session} {vs : List Value} {e : Option Error}
    (hy : Yields h p s vs e t) : ∃ q u, Begins h p s vs q u := by
  induction hy with
  | finish | failed => exact ⟨_, _, .nil⟩
  | item hd _ ih =>
    obtain ⟨q, u, hq⟩ := ih
    exact ⟨q, u, .item hd hq⟩

end Producer

end XPath
