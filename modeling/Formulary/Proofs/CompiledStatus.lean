import Mathlib.Data.List.Induction
import Formulary.Proofs.CommandFrame
import Formulary.Proofs.ReachableFormula

namespace Formulary

/-- Code gives the value that the tree gives. -/
theorem Formula.Reachable.compiledValue_eq {f : Formula} (h : f.Reachable)
    (hc : f.isCompiled = true) : f.compiledValue = .ok f.value := by
  obtain ⟨code, hcode⟩ := Option.isSome_iff_exists.mp hc
  have hvalue : code = f.root.eval? := h.sound.1.2 code hcode
  rw [Formula.compiledValue, hcode, hvalue]
  rfl

theorem Formula.compiledValue_of_not_compiled {f : Formula} (h : f.isCompiled = false) :
    f.compiledValue = .error .notCompiled := by
  have hcode : f.code = none := Option.not_isSome_iff_eq_none.mp (by simpa [isCompiled] using h)
  rw [Formula.compiledValue, hcode]

theorem Formula.assign_isCompiled {f g : Formula} {name : String} {value : Float}
    (h : f.assign name value = .ok g) : g.isCompiled = f.isCompiled := by
  obtain ⟨arguments, _, rfl⟩ := Formula.assign_eq_ok h
  rfl

namespace Session

/-- Whether the formula of a name is compiled, if there is one. -/
def status? (s : Session) (name : String) : Option Bool := (s.find? name).map Formula.isCompiled

/-- A line that compiles the formula of a name. -/
def Compiles (s : Session) (line name : String) : Prop :=
  lineWords line = ["compile", name] ∧ ∃ reply, (s.answer line).1 = .ok reply

/-- One of some lines compiled the formula of a name. -/
def CompiledBy (lines : List String) (name : String) : Prop :=
  ∃ earlier line later, lines = earlier ++ line :: later ∧ (after {} earlier).Compiles line name

variable {s next : Session} {lines : List String} {line name : String} {f : Formula}

section Step

theorem status?_of_find? (h : s.find? name = some f) : s.status? name = some f.isCompiled := by
  rw [status?, h]
  rfl

theorem status?_eq_none : s.status? name = none ↔ s.find? name = none :=
  Option.map_eq_none_iff

/-- What a command makes of the status of a formula: only the compilation of the formula itself
changes it, and a created formula has not been compiled. -/
theorem Effect.status? {command : Command} (h : s.Effect command next) (name : String) :
    (command = .compile name ∧ next.status? name = some true) ∨
      (command ≠ .compile name ∧ next.status? name = s.status? name) ∨
      (s.status? name = none ∧ next.status? name = some false) := by
  cases h with
  | @created other source f hn hp =>
    have hnext := find?_append s f name other
    by_cases he : other = name
    · subst he
      refine Or.inr (Or.inr ⟨status?_eq_none.mpr hn, ?_⟩)
      rw [hn, if_pos rfl, Option.none_or] at hnext
      rw [status?_of_find? hnext, (Formula.parse_fresh hp).1]
    · refine Or.inr (Or.inl ⟨by simp, ?_⟩)
      rw [if_neg he, Option.or_none] at hnext
      rw [Session.status?, hnext, Session.status?]
  | @compiled other f hf =>
    have hnext := find?_replace hf f.compile name
    by_cases he : other = name
    · subst he
      refine Or.inl ⟨rfl, ?_⟩
      rw [if_pos rfl] at hnext
      rw [status?_of_find? hnext, f.compile_isCompiled]
    · refine Or.inr (Or.inl ⟨by simpa using he, ?_⟩)
      rw [if_neg he] at hnext
      rw [Session.status?, hnext, Session.status?]
  | @assigned other argument value f g hf ha =>
    have hnext := find?_replace hf g name
    refine Or.inr (Or.inl ⟨by simp, ?_⟩)
    by_cases he : other = name
    · subst he
      rw [if_pos rfl] at hnext
      rw [status?_of_find? hnext, status?_of_find? hf, Formula.assign_isCompiled ha]
    · rw [if_neg he] at hnext
      rw [Session.status?, hnext, Session.status?]
  | looked hc =>
    refine Or.inr (Or.inl ⟨?_, rfl⟩)
    rintro rfl
    simp [Command.changes] at hc

theorem compiles_iff {command : Command} {reply : Reply} (hread : Command.read line = .ok command)
    (hok : (s.answer line).1 = .ok reply) : s.Compiles line name ↔ command = .compile name := by
  constructor
  · rintro ⟨hwords, _⟩
    exact Except.ok.inj (hread.symm.trans (Command.read_compile_of_words hwords))
  · rintro rfl
    exact ⟨(Command.read_spelled hread).compile_words, reply, hok⟩

/-- The same for a line: if it compiles the formula then it is compiled, and otherwise its status
is as it was, or it is a new formula that is not compiled. -/
theorem answer_status? (s : Session) (line name : String) :
    (s.Compiles line name ∧ (s.answer line).2.status? name = some true) ∨
      (¬s.Compiles line name ∧ (s.answer line).2.status? name = s.status? name) ∨
      (s.status? name = none ∧ (s.answer line).2.status? name = some false) := by
  rcases s.answer_cases line with ⟨refusal, ha⟩ | ⟨command, reply, next, hread, ha, effect⟩
  · refine Or.inr (Or.inl ⟨?_, by rw [ha]⟩)
    rintro ⟨_, reply, hok⟩
    simp [ha] at hok
  · have hcompiles : s.Compiles line name ↔ command = .compile name :=
      compiles_iff hread (congrArg Prod.fst ha)
    rw [hcompiles, ha]
    exact effect.status? name

end Step

section Run

theorem compiledBy_concat :
    CompiledBy (lines ++ [line]) name ↔
      CompiledBy lines name ∨ (after {} lines).Compiles line name := by
  constructor
  · rintro ⟨earlier, compiling, later, hlines, hc⟩
    rcases List.eq_nil_or_concat later with rfl | ⟨initial, last, rfl⟩
    · obtain ⟨rfl, hline⟩ := List.append_inj' hlines rfl
      obtain rfl := (List.cons.inj hline).1
      exact Or.inr hc
    · rw [List.concat_eq_append, ← List.cons_append, ← List.append_assoc] at hlines
      obtain ⟨rfl, _⟩ := List.append_inj' hlines rfl
      exact Or.inl ⟨earlier, compiling, initial, rfl, hc⟩
  · rintro (⟨earlier, compiling, later, rfl, hc⟩ | hc)
    · exact ⟨earlier, compiling, later ++ [line], by simp, hc⟩
    · exact ⟨lines, line, [], rfl, hc⟩

/-- By induction on the lines: a formula is compiled when one of them compiled it. Copies of it in
other formulas, compiled or not, have no part in it. -/
theorem status?_eq_true (lines : List String) (name : String) :
    (after {} lines).status? name = some true ↔ CompiledBy lines name := by
  induction lines using List.reverseRecOn with
  | nil =>
    refine iff_of_false (by simp [after, status?, find?]) ?_
    rintro ⟨earlier, line, later, hlines, _⟩
    simp at hlines
  | append_singleton lines line ih =>
    rw [after_concat, compiledBy_concat, ← ih]
    rcases (after {} lines).answer_status? line name with
      ⟨hc, hnext⟩ | ⟨hc, hnext⟩ | ⟨hnone, hnext⟩
    · exact iff_of_true hnext (Or.inr hc)
    · rw [hnext]
      exact ⟨Or.inl, fun h => h.resolve_right hc⟩
    · have hfind : (after {} lines).find? name = none := status?_eq_none.mp hnone
      refine iff_of_false (by simp [hnext]) ?_
      rintro (h | ⟨hwords, reply, hok⟩)
      · simp [hnone] at h
      · rw [answer, Command.read_compile_of_words hwords] at hok
        simp [runOn_compile, hfind] at hok

theorem answer_evalCompiled (hf : s.find? name = some f)
    (h : lineWords line = ["eval-compiled", name] ∨ lineWords line = ["eval-il", name]) :
    (s.answer line).1 = match f.compiledValue with
      | .ok value => .ok (.text (evaluationText value))
      | .error error => .error (.formula error) := by
  rw [answer, Command.read_evalCompiled_of_words h]
  simp only [runOn_evalCompiled, hf]
  cases f.compiledValue <;> rfl

theorem answer_eval (hf : s.find? name = some f) (h : lineWords line = ["eval", name]) :
    (s.answer line).1 = .ok (.text (evaluationText f.value)) := by
  rw [answer, Command.read_eval_of_words h]
  simp only [runOn_eval, hf]

end Run

/-- Whether a formula has code depends on its own history only: it is asked for its compiled value
in vain until a line compiles it, and from then on it answers as it does when its tree is evaluated,
whatever lines come in between. No other line changes the status of a stored formula, and a formula
that is created is not compiled, whatever it calls. -/
theorem compiled_by_own_line (lines : List String) (name : String)
    (stored : ∃ f, (after {} lines).find? name = some f) :
    (∀ question, lineWords question = ["eval-compiled", name] ∨
        lineWords question = ["eval-il", name] →
      (((after {} lines).answer question).1 = .error (.formula .notCompiled) ↔
        ¬CompiledBy lines name) ∧
      (CompiledBy lines name → ∃ text,
        ((after {} lines).answer question).1 = .ok (.text text) ∧
        ∀ line, lineWords line = ["eval", name] →
          ((after {} lines).answer line).1 = .ok (.text text))) ∧
    (∀ line, lineWords line ≠ ["compile", name] →
      (after {} (lines ++ [line])).status? name = (after {} lines).status? name) ∧
    ∀ line caller f, (after {} lines).find? caller = none →
      (after {} (lines ++ [line])).find? caller = some f → f.isCompiled = false := by
  obtain ⟨f, hf⟩ := stored
  have hstatus : f.isCompiled = true ↔ CompiledBy lines name := by
    rw [← status?_eq_true, status?_of_find? hf, Option.some.injEq]
  have hreach : f.Reachable :=
    (Reachable.start.after lines).formulas_reachable _ (find?_mem hf)
  refine ⟨fun question hq => ?_, fun line hline => ?_, fun line caller g hnone hg => ?_⟩
  · rw [answer_evalCompiled hf hq, ← hstatus]
    cases hc : f.isCompiled with
    | false => simp [Formula.compiledValue_of_not_compiled hc]
    | true =>
      rw [hreach.compiledValue_eq hc]
      exact ⟨by simp, fun _ => ⟨_, rfl, fun line hline => answer_eval hf hline⟩⟩
  · rw [after_concat]
    rcases (after {} lines).answer_status? line name with ⟨hc, _⟩ | ⟨_, h⟩ | ⟨hnone, _⟩
    · exact absurd hc.1 hline
    · exact h
    · rw [status?_of_find? hf] at hnone
      cases hnone
  · rw [after_concat] at hg
    have hfresh := (after {} lines).answer_status? line caller
    rw [status?_of_find? hg, status?_eq_none.mpr hnone] at hfresh
    rcases hfresh with ⟨⟨hwords, reply, hok⟩, _⟩ | ⟨_, h⟩ | ⟨_, h⟩
    · rw [answer, Command.read_compile_of_words hwords] at hok
      simp [runOn_compile, hnone] at hok
    · cases h
    · exact Option.some.inj h

/-- A formula that is compiled, one that calls it, and a compiled one that calls that. -/
def nestedLines : List String :=
  ["create f 2*x", "compile f", "create g f(y)+1", "create h g(z)*f(z)", "compile h", "set g y 4",
    "set h z 3"]

theorem nested_compiled_by_own_line :
    (∃ f, (after {} nestedLines).find? "g" = some f) ∧
    (∃ f, (after {} nestedLines).find? "h" = some f) ∧
    ((after {} nestedLines).answer "eval-il g").1 = .error (.formula .notCompiled) ∧
    ¬CompiledBy nestedLines "g" ∧ CompiledBy nestedLines "h" ∧
    ∃ text, ((after {} nestedLines).answer "eval-compiled h").1 = .ok (.text text) ∧
      ((after {} nestedLines).answer "eval h").1 = .ok (.text text) := by
  have stored : ∀ name ∈ ["g", "h"], ∃ f, (after {} nestedLines).find? name = some f := by
    intro name hname
    have hsome : ((after {} nestedLines).find? name).isSome = true := by
      revert name
      decide +kernel
    exact Option.isSome_iff_exists.mp hsome
  have refused : ((after {} nestedLines).answer "eval-il g").1 =
      .error (.formula .notCompiled) := by decide +kernel
  have answered : ((after {} nestedLines).answer "eval-compiled h").1 ≠
      .error (.formula .notCompiled) := by decide +kernel
  have hg := (compiled_by_own_line nestedLines "g" (stored "g" (by decide))).1 "eval-il g"
    (Or.inr (by decide +kernel))
  have hh := (compiled_by_own_line nestedLines "h" (stored "h" (by decide))).1 "eval-compiled h"
    (Or.inl (by decide +kernel))
  have compiled : CompiledBy nestedLines "h" := by
    by_contra hn
    exact answered (hh.1.mpr hn)
  obtain ⟨text, hcode, htree⟩ := hh.2 compiled
  exact ⟨stored "g" (by decide), stored "h" (by decide), refused, hg.1.mp refused, compiled, text,
    hcode, htree "eval h" (by decide +kernel)⟩

end Session

end Formulary
