import XPath.Expr.Evaluate
import XPath.Lazy.Snapshot

/-!
# Delivery

What a reader gets of an expression: all its items, waiting at every suspension, with the members of
arrays and the values of maps read to the end.
-/

namespace XPath

/-- The items of a producer read to the end, or the error that ends them; none if the fuel does not
suffice. -/
def Producer.deliver (h : Host) (fuel : Nat) (p : Producer) (s : Session) :
    Option (Except Error (List Snapshot) × Session) :=
  Snapshot.drained h fuel (Snapshot.ofValue h fuel) p s

/-- The items of an expression in a context. An error may be raised before any item is asked for. -/
def Expr.deliver (h : Host) (fuel : Nat) (e : Expr) (c : Context) (s : Session) :
    Option (Except Error (List Snapshot) × Session) :=
  match e.evaluate c .live with
  | .ok p => p.deliver h fuel s
  | .error e => some (.error e, s)

end XPath
