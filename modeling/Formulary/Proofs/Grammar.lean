import Formulary.Proofs.Extensions
import Formulary.Proofs.LiteralText
import Formulary.Proofs.NameText

namespace Formulary

def Blanks (text : List Char) : Prop := ∀ c ∈ text, isBlank c = true

mutual

/-- A text of a level denotes a term. The bindings before and after it stand for the names that are
known, since the first occurrence of a name decides its slot. Blanks may surround every token. -/
inductive Derives (entries : List (String × Extension)) :
    Level → Bindings → List Char → Term → Bindings → Prop
  | loosen {level looser : Level} {b c : Bindings} {text : List Char} {t : Term} :
    Derives entries level b text t c → level.rank ≤ looser.rank →
    Derives entries looser b text t c
  | binary {op : Operator} {b m c : Bindings} {u v : List Char} {x y : Term} :
    Derives entries op.leftLevel b u x m → Derives entries op.rightLevel m v y c →
    Derives entries op.level b (u ++ op.symbol :: v) (.binary op x y) c
  | plus {b c : Bindings} {ws text : List Char} {t : Term} :
    Blanks ws → Derives entries .signed b text t c →
    Derives entries .signed b (ws ++ '+' :: text) t c
  | minus {b c : Bindings} {ws text : List Char} {t : Term} :
    Blanks ws → Derives entries .signed b text t c →
    Derives entries .signed b (ws ++ '-' :: text) t.negate c
  | group {b c : Bindings} {ws text later : List Char} {t : Term} :
    Blanks ws → Derives entries .sum b text t c → Blanks later →
    Derives entries .atom b (ws ++ '(' :: (text ++ [')']) ++ later) t c
  | literal {b : Bindings} {ws text later : List Char} {d : Decimal} :
    Blanks ws → Literal text d → d.rank < infiniteRank → Blanks later →
    Derives entries .atom b (ws ++ text ++ later) (.constant (floatOfRank d.rank)) b
  | name {b : Bindings} {ws text later : List Char} :
    Blanks ws → isName text = true → Blanks later →
    Derives entries .atom b (ws ++ text ++ later)
      (.argument (String.ofList text) (b.register (String.ofList text)).1)
      (b.register (String.ofList text)).2
  | call {b c : Bindings} {ws name spaces text later : List Char} {e : Extension}
      {operands : List Term} :
    Blanks ws → isName name = true → (∀ c ∈ spaces, isSpace c = true) →
    latest? entries (String.ofList name) = some e → DerivesAll entries b text operands c →
    e.arity.accepts operands.length = true → Blanks later →
    Derives entries .atom b (ws ++ (name ++ spaces ++ '(' :: (text ++ [')'])) ++ later)
      (e.term (String.ofList name) operands) c

/-- The arguments of a call, from left to right. Blanks alone are no argument. -/
inductive DerivesAll (entries : List (String × Extension)) :
    Bindings → List Char → List Term → Bindings → Prop
  | none {b : Bindings} {text : List Char} : Blanks text → DerivesAll entries b text [] b
  | one {b c : Bindings} {text : List Char} {t : Term} :
    Derives entries .sum b text t c → DerivesAll entries b text [t] c
  | more {b m c : Bindings} {text rest : List Char} {t second : Term} {others : List Term} :
    Derives entries .sum b text t m → DerivesAll entries m rest (second :: others) c →
    DerivesAll entries b (text ++ ',' :: rest) (t :: second :: others) c

end

variable {entries : List (String × Extension)}

mutual

/-- Whatever the grammar derives can stand as it is between operators and commas. -/
theorem Derives.phrase {level : Level} {b c : Bindings} {text : List Char} {t : Term}
    (h : Derives entries level b text t c) : Phrase level text := by
  match h with
  | .loosen hd hle => exact hd.phrase.loosen hle
  | .binary hu hv => exact hu.phrase.binary hv.phrase
  | .plus hws hd => simpa using (hd.phrase.sign (c := '+') rfl).pad hws (v := []) (by simp)
  | .minus hws hd => simpa using (hd.phrase.sign (c := '-') rfl).pad hws (v := []) (by simp)
  | .group hws hd hlater =>
    exact (Phrase.closed (u := []) (by simp) hd.phrase.balanced).pad hws hlater
  | .literal hws hlit _ hlater => exact (Phrase.of_literal hlit).pad hws hlater
  | .name hws hname hlater => exact (Phrase.of_name hname).pad hws hlater
  | .call hws hname hs _ hall _ hlater =>
    exact (Phrase.of_call hname hs hall.balanced).pad hws hlater

theorem DerivesAll.balanced {b c : Bindings} {text : List Char} {operands : List Term}
    (h : DerivesAll entries b text operands c) : Balanced text := by
  match h with
  | .none hblank => exact Phrase.balanced_blanks hblank
  | .one hd => exact hd.phrase.balanced
  | .more hd hrest =>
    exact hd.phrase.balanced.append (.char (by decide) (by decide) hrest.balanced)

end

end Formulary
