import XPath.Proofs.Lazy.Provision
import XPath.Proofs.Lazy.Unnesting
import XPath.Proofs.Library.Calls

/-!
# Flattening sequences

A call gives what is read depth first. A second call changes nothing, and what is flattened has the same
data as before, with the same end or error (`Producer.flatten_leaves`).
-/

namespace XPath

namespace Producer

variable {h : Host} {c : CallContext}

theorem invoke_flatten (c : CallContext) (p : Producer) :
    (Function.builtin .arrayFlatten).invoke c [p] = .ok (flatten p) := by
  rfl

theorem invoke_data (c : CallContext) (p : Producer) :
    (Function.builtin (.data false)).invoke c [p] = .ok (atomize c.access p) := by
  rfl

/-- Whatever the producer, and whether its cells fail or have to be computed and waited for: flattening it
gives the items that are no arrays, as they are read depth first, up to the end or the first error.
Flattening that gives the same answers, and so do the data of it and those of the producer. -/
theorem flatten_leaves (h : Host) (c : CallContext) (p : Producer) (s : Session) :
    ∃ flat again data data' : Producer,
      (Function.builtin .arrayFlatten).invoke c [p] = .ok flat ∧
      (Function.builtin .arrayFlatten).invoke c [flat] = .ok again ∧
      (Function.builtin (.data false)).invoke c [p] = .ok data ∧
      (Function.builtin (.data false)).invoke c [flat] = .ok data' ∧
      (∀ vs e t, Yields h flat s.calm vs e t ↔ Unnests h p s.calm vs e t) ∧
      (∀ vs e t, Unnests h p s.calm vs e t → (∀ v ∈ vs, v.isLeaf) ∧ flat.Provides h s vs e) ∧
      SameAnswers h s flat again ∧ SameAnswers h s data data' := by
  obtain ⟨hagain, honce⟩ := flatten_mimics (h := h) p
  refine ⟨_, _, _, _, invoke_flatten c p, invoke_flatten c _, invoke_data c p, invoke_data c _,
    fun vs e t => yields_flatten, fun vs e t hp => ⟨hp.isLeaf, hp.flatten.provides rfl⟩,
    honce.sameAnswers hagain s, ?_⟩
  exact (honce.forEach 0 _ _).sameAnswers (hagain.forEach 0 _ _) s

/-- An array with an empty array in it, and with a member that is computed when it is read and fails
behind its first item. What follows the array is not reached. -/
theorem flatten_leaves_failing (c : CallContext) :
    let e : Error := ⟨.FOER0000, "x"⟩
    let s := (Session.empty.allocate (.emit (.atomic (.integer 2)) (.fail e))).2
    let p := ofList [.array [.listed [.atomic (.integer 1), .array []], .cell 0], .atomic (.integer 3)]
    ∃ flat, (Function.builtin .arrayFlatten).invoke c [p] = .ok flat ∧
      flat.Provides .absent s [.atomic (.integer 1), .atomic (.integer 2)] (some e) := by
  intro e s p
  obtain ⟨flat, -, -, -, hflat, -, -, -, -, hprovides, -⟩ := flatten_leaves .absent c p s
  have hempty (t : Session) : Unnests .absent (readers []) t [] none t := .finish .done
  -- The cell is asked for its item, which it keeps, and then for another one.
  obtain ⟨t, hmembers⟩ : ∃ t, Unnests .absent
      (readers [.listed [.atomic (.integer 1), .array []], .cell 0]) s.calm
      [.atomic (.integer 1), .atomic (.integer 2)] (some e) t :=
    ⟨_, .leaf (.append_item .emit) rfl (.array (.append_item .emit) (hempty _) (.leaf
      (.append_finish .done (.append_item (.call (.unread_item rfl .emit (.fetch_item rfl .emit))))) rfl
      (.failed (.append_failed (.call (.unread_failed rfl .fail))))))⟩
  exact ⟨flat, hflat, (hprovides _ _ _ (.inside .emit hmembers)).2⟩

end Producer

end XPath
