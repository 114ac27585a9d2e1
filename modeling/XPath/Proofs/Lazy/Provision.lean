import XPath.Proofs.Lazy.Sources

/-!
# What a producer provides

A producer provides a course if this is what a caller gets out of it who asks for one item after the
other and waits whenever he is told to, and if he can have as many answers as he likes
(`Producer.Provides`). Whatever is yielded without suspensions is provided with all of them
(`Producer.Yields.provides`).
-/

namespace XPath

namespace Producer

/-- A caller of `next` is given the items in order, then the error once, if one ends them, and then the
end for ever. Any number of answers can be had. -/
structure Provides (h : Host) (p : Producer) (s : Session) (vs : List Value) (e : Option Error) :
    Prop where
  gives : ∀ os q t, Sequence.Delivers h (.ofProducer p) s os q t → Supply.Gives ⟨vs, some e⟩ os
  answers : ∀ n, ∃ os q t, os.length = n ∧ Sequence.Delivers h (.ofProducer p) s os q t

variable {h : Host} {p : Producer} {s t u : Session} {vs ws : List Value} {e e' : Option Error}

theorem Yields.provides (hp : Yields h p s vs e t) (hu : u.calm = s) : p.Provides h u vs e where
  gives os q t := by
    rintro ⟨xs, hnext, rfl, hserves⟩
    have hstage := hserves.stage (fun x hx => by rw [hnext x hx]; nofun) (.inl hnext)
    exact Yields.gives (hu ▸ hp) hstage.responds
  answers n := by
    obtain ⟨os, hos, hr⟩ := hp.exists_responds n
    obtain ⟨q, t, hd⟩ := hr.delivers hu
    exact ⟨os, q, t, hos, hd⟩

end Producer

end XPath
