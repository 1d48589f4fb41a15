import Formulary.Proofs.GrammarSound
import Formulary.Proofs.Provenance

namespace Formulary

variable {entries : List (String × Extension)}

/-- The grammar is unambiguous, also across its levels. -/
theorem Derives.unique {level other : Level} {b c c' : Bindings} {text : List Char} {t t' : Term}
    (h : Derives entries level b text t c) (h' : Derives entries other b text t' c') :
    t = t' ∧ c = c' := by
  have hrun := h.resolve (f := ⟨0, text⟩) rfl
  have hrun' := h'.resolve (f := ⟨0, text⟩) rfl
  exact Prod.mk.inj (Except.ok.inj (hrun.symm.trans hrun'))

end Formulary
