import XPath.Lazy.Session
import XPath.Library.Functions

/-!
# Advancing producers

`Producer.next` draws the next item of a producer. Nothing is skipped or repeated when a suspension
comes between: the rest of the producer stands where the suspension met it. Fuel bounds the number
of steps, since functions may call one another without end; running out of fuel is an outcome of its
own.
-/

namespace XPath

/-! ## Calls -/

namespace Goal

/-- The goals that decide whether two maps of equal size are equal. -/
def entries (left right : Entries) : List Goal :=
  left.map fun (key, value) =>
    match right.get? key with
    | some other => members value other 0
    | none => differ

/-- One verdict, or the goals and the rest to go on with. -/
def unfold (access : Access) (a b : Value) (rest : List Goal) : Producer :=
  let verdict (equal : Bool) : Producer :=
    if equal then .call (.equal access rest) else .singleton (.boolean false)
  match a, b with
  | .atomic a, .atomic b => verdict (a.deepEqual b)
  | .map left, .map right =>
    if left.length = right.length then .call (.equal access (entries left right ++ rest))
    else verdict false
  | .array left, .array right =>
    if left.length = right.length then
      .call (.equal access ((left.zip right).map (fun (x, y) => members x y 0) ++ rest))
    else verdict false
  | .node a, .node b => .perform access (a.deepEqual b) verdict
  | _, _ => verdict false

end Goal

/-- The computation that a call stands for. -/
def Call.body : Call → Producer
  | .read cell index => .fetch (.cell cell) index fun
    | some v => .emit v (.call (.read cell (index + 1)))
    | none => .done
  | .leaves members => .flatten (.readers members)
  | .equal _ [] => .singleton (.boolean true)
  | .equal _ (.differ :: _) => .singleton (.boolean false)
  | .equal access (.items a b :: rest) => Goal.unfold access a b rest
  | .equal access (.members a b index :: rest) =>
    .fetch a index fun x => .fetch b index fun y =>
      match x, y with
      | some x, some y => .call (.equal access (.items x y :: .members a b (index + 1) :: rest))
      | none, none => .call (.equal access rest)
      | _, _ => .singleton (.boolean false)

/-! ## Turns -/

/-- What one advance of a producer comes to: an item, none at the end. -/
structure Turn where
  outcome : Attempt (Option Value)
  rest : Producer
  session : Session

namespace Turn

/-- The end of a producer. -/
def finished (s : Session) : Turn := ⟨.ready none, .done, s⟩

/-- An error ends a producer. -/
def failed (e : Error) (s : Session) : Turn := ⟨.failed e, .done, s⟩

/-- Goes on after a turn of an inner producer. When the turn gives no answer, what is left of the
inner producer goes back to its place. -/
@[inline] def andThen (t : Turn) (around : Producer → Producer)
    (item : Value → Producer → Session → Turn) (finish : Session → Turn) : Turn :=
  match t.outcome with
  | .ready (some v) => item v t.rest t.session
  | .ready none => finish t.session
  | .failed e => failed e t.session
  | .pending topic => ⟨.pending topic, around t.rest, t.session⟩
  | .exhausted => ⟨.exhausted, around t.rest, t.session⟩

end Turn

namespace Producer

/-- Draws the next item. -/
def next (h : Host) : Nat → Producer → Session → Turn
  | 0, p, s => ⟨.exhausted, p, s⟩
  | fuel + 1, p, s =>
    match p with
    | done => .finished s
    | fail e => .failed e s
    | emit v rest => ⟨.ready (some v), rest, s⟩
    | append first second =>
      (next h fuel first s).andThen (fun first => append first second)
        (fun v first s => ⟨.ready (some v), append first second, s⟩)
        fun s => next h fuel (second ()) s
    | ask q k =>
      match s.ask h q with
      | (.ready answer, s) => next h fuel (k answer) s
      | (.failed e, s) => .failed e s
      | (.pending topic, s) => ⟨.pending topic, ask q k, s⟩
      | (.exhausted, s) => ⟨.exhausted, ask q k, s⟩
    | fetch shared i k =>
      match s.look shared i with
      | .item v => next h fuel (k (some v)) s
      | .finish => next h fuel (k none) s
      | .failed e => .failed e s
      | .unread cell source =>
        let t := next h fuel source (s.detach cell)
        match t.outcome with
        | .ready (some v) => next h fuel (fetch shared i k) (t.session.keep cell v t.rest)
        | .ready none => next h fuel (k none) t.session
        | .failed e => .failed e (t.session.spoil cell e)
        | .pending topic => ⟨.pending topic, fetch shared i k, t.session.attach cell t.rest⟩
        | .exhausted => ⟨.exhausted, fetch shared i k, t.session.attach cell t.rest⟩
    | length shared k => next h fuel (k (s.length? shared)) s
    | share source k =>
      let (shared, s) := s.allocate source
      next h fuel (k shared) s
    | gather step i kept source k =>
      (next h fuel source s).andThen (fun source => gather step i kept source k)
        (fun v source s =>
          match step i kept v with
          | .more kept => next h fuel (gather step (i + 1) kept source k) s
          | .enough kept => next h fuel (k kept) s
          | .fail e => .failed e s)
        fun s => next h fuel (k kept) s
    | forEach i source body finish =>
      (next h fuel source s).andThen (fun source => forEach i source body finish)
        (fun v source s =>
          next h fuel (append (body i v) fun _ => forEach (i + 1) source body finish) s)
        fun s => next h fuel (finish i) s
    | apply f c arguments k =>
      match f.invoke c arguments with
      | .ok result => next h fuel (share result k) s
      | .error e => .failed e s
    | call c => next h fuel c.body s
    | log label items rest => next h fuel rest (s.report label items)
    | pause rest => ⟨.pending none, rest, s⟩
    | tick rest => next h fuel rest s.tick

/-- Draws all items, given those drawn before, last first. A suspension gives up. -/
def collect (h : Host) : Nat → List Value → Producer → Session → Attempt (List Value) × Session
  | 0, _, _, s => (.exhausted, s)
  | fuel + 1, drawn, p, s =>
    let t := p.next h fuel s
    match t.outcome with
    | .ready (some v) => collect h fuel (v :: drawn) t.rest t.session
    | .ready none => (.ready drawn.reverse, t.session)
    | .failed e => (.failed e, t.session)
    | .pending topic => (.pending topic, t.session)
    | .exhausted => (.exhausted, t.session)

/-- Draws all items, waiting at every suspension; none if the fuel does not suffice. -/
def materialize (h : Host) : Nat → List Value → Producer → Session →
    Option (Except Error (List Value) × Session)
  | 0, _, _, _ => none
  | fuel + 1, drawn, p, s =>
    let t := p.next h fuel s
    match t.outcome with
    | .ready (some v) => materialize h fuel (v :: drawn) t.rest t.session
    | .ready none => some (.ok drawn.reverse, t.session)
    | .failed e => some (.error e, t.session)
    | .pending topic => materialize h fuel drawn t.rest (t.session.await topic)
    | .exhausted => none

end Producer

end XPath
