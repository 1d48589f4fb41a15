import Formulary.Proofs.GrammarComplete

namespace Formulary

variable {entries : List (String × Extension)}

/-- Whatever a fragment is parsed to, the grammar derives from every text like it, at each level
that admits the operators which show. -/
def Fragment.Explained (entries : List (String × Extension)) (f : Fragment) : Prop :=
  ∀ {level : Level} {b c : Bindings} {text : List Char} {t : Term},
    (f.outline.resolve (Registry.ofExtensions entries)).run b = .ok (t, c) → Alike text f.text →
    Level.signed.rank ≤ level.rank → ShowsUpTo level (mask f.trim.text) →
    Derives entries level b text t c

theorem ShowsUpTo.trim {level : Level} {f : Fragment} (h : ShowsUpTo level (mask f.text)) :
    ShowsUpTo level (mask f.trim.text) :=
  fun op hop => h op (mem_mask_of_trim hop)

namespace Fragment

variable {f : Fragment} {level : Level} {b c : Bindings} {t : Term} {ws later rest : List Char}

section Parts

variable (ih : ∀ g : Fragment, g.text.length < f.text.length → g.Explained entries)

include ih

end Parts

end Fragment

end Formulary
