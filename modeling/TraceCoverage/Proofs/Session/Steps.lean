import TraceCoverage.Session.Run
import Mathlib.Data.List.Forall2

/-!
# Steps of a session

A step reads files and leaves its warnings and temporary files behind. Where the trees that it can
meet are known, what it reads is known as well, and it yields the same from each of them.
-/

namespace TraceCoverage

namespace SessionM

variable {α β : Type}

/-- The step ends so, whatever it leaves behind. -/
def Ends (x : SessionM α) (w : Workspace) (result : Except SessionError α) : Prop :=
  ∃ w', x.run.run w = (result, w')

/-- From every tree of a kind, the step succeeds with a value and leaves a tree of that kind. -/
def Yields (I : FileTree → Prop) (x : SessionM α) (a : α) : Prop :=
  ∀ w, I w.scratch.tree → ∃ w', x.run.run w = (.ok a, w') ∧ I w'.scratch.tree

variable {I : FileTree → Prop} {x : SessionM α} {f : α → SessionM β} {a : α} {b : β}
  {w : Workspace}

theorem run_bind_of_ok {w' : Workspace} (hx : x.run.run w = (.ok a, w')) :
    (x >>= f).run.run w = (f a).run.run w' := by
  rw [ExceptT.run_bind, StateT.run_bind, hx]
  rfl

theorem Yields.ends_bind {result : Except SessionError β} (hx : Yields I x a)
    (hw : I w.scratch.tree) (h : ∀ w', I w'.scratch.tree → (f a).Ends w' result) :
    (x >>= f).Ends w result := by
  obtain ⟨w', hrun, hw'⟩ := hx w hw
  obtain ⟨w'', hrest⟩ := h w' hw'
  exact ⟨w'', (run_bind_of_ok hrun).trans hrest⟩

theorem yields_pure (a : α) : Yields I (pure a) a := fun w hw => ⟨w, rfl, hw⟩

theorem Yields.bind (hx : Yields I x a) (hf : Yields I (f a) b) : Yields I (x >>= f) b := by
  intro w hw
  obtain ⟨w', hrun, hw'⟩ := hx w hw
  obtain ⟨w'', hrest, hw''⟩ := hf w' hw'
  exact ⟨w'', (run_bind_of_ok hrun).trans hrest, hw''⟩

theorem yields_warn (ws : List Warning) : Yields I (warn ws) () := fun _ hw => ⟨_, rfl, hw⟩

theorem yields_ofExcept {ε : Type} (wrap : ε → SessionError) : Yields I (ofExcept wrap (.ok a)) a :=
  yields_pure a

theorem yields_scratch_bind {f : Scratch → SessionM β}
    (h : ∀ s : Scratch, I s.tree → Yields I (f s) b) : Yields I (scratch >>= f) b := by
  intro w hw
  exact h w.scratch hw w hw

theorem yields_mapM {α β : Type} {f : α → SessionM β} {l : List α} {bs : List β}
    (h : List.Forall₂ (fun a b => Yields I (f a) b) l bs) : Yields I (l.mapM f) bs := by
  induction h with
  | nil => exact yields_pure []
  | cons hb _ ih =>
    rw [List.mapM_cons]
    exact hb.bind (ih.bind (yields_pure _))

end SessionM

end TraceCoverage
