import Formulary.Session

namespace Formulary

/-- The commands that may change a session. -/
def Command.changes : Command → Bool
  | .create .. | .compile _ | .set .. => true
  | _ => false

namespace Session

section RunOn

variable {α β : Type} {s : Session} {name : String}

/-! What the parts of a command's work give, and what each command gives. -/

theorem runOn_bind (x : Action α) (f : α → Action β) (s : Session) :
    (x >>= f).runOn s =
      match x.runOn s with
      | (.ok value, next) => (f value).runOn next
      | (.error refusal, next) => (.error refusal, next) := by
  unfold Action.runOn
  rw [ExceptT.run_bind, StateT.run_bind, Id.run_bind]
  rcases Id.run (x.run.run s) with ⟨_ | _, _⟩ <;> rfl

theorem runOn_get (s : Session) : (get : Action Session).runOn s = (.ok s, s) := rfl

theorem runOn_ofParse (x : Except Error α) (s : Session) : (ofParse x).runOn s =
    match x with
    | .ok value => (.ok value, s)
    | .error error => (.error (.formula error), s) := by
  cases x <;> rfl

theorem runOn_fetch_bind (f : Formula → Action β) : (fetch name >>= f).runOn s =
    match s.find? name with
    | some found => (f found).runOn s
    | none => (.error (.unknownFormula name), s) := by
  have hfetch : (fetch name).runOn s =
      match s.find? name with
      | some found => (.ok found, s)
      | none => (.error (.unknownFormula name), s) := by
    rw [fetch, runOn_bind, runOn_get]
    cases h : s.find? name <;> simp only [h] <;> rfl
  rw [runOn_bind, hfetch]
  cases s.find? name <;> rfl

theorem runOn_create (source : String) : (perform (.create name source)).runOn s =
    if (s.find? name).isSome then (.error (.alreadyExists name), s)
    else match Formula.parse s.registry source with
      | .error error => (.error (.formula error), s)
      | .ok f => (.ok (.text ("Created expression " ++ quoted name ++ ".")),
          ⟨s.formulas ++ [(name, f)]⟩) := by
  rw [perform, runOn_bind, runOn_get]
  by_cases h : (s.find? name).isSome
  · simp only [h, if_true]
    rfl
  · simp only [h]
    cases Formula.parse s.registry source <;> rfl

theorem runOn_compile : (perform (.compile name)).runOn s =
    match s.find? name with
    | some f => (.ok (.text ("Compiled expression " ++ quoted name ++ ".")),
        s.replace name f.compile)
    | none => (.error (.unknownFormula name), s) :=
  runOn_fetch_bind _

theorem runOn_set (argument : String) (value : Float) :
    (perform (.set name argument value)).runOn s =
      match s.find? name with
      | some f =>
        match f.assign argument value with
        | .ok g => (.ok (.text ("Success: " ++ name ++ "." ++ argument ++ "=" ++
            plainNumber value)), s.replace name g)
        | .error error => (.error (.formula error), s)
      | none => (.error (.unknownFormula name), s) := by
  rw [perform, runOn_fetch_bind]
  cases s.find? name with
  | none => rfl
  | some f =>
    simp only [runOn_bind, runOn_ofParse]
    cases f.assign argument value <;> rfl

theorem runOn_eval : (perform (.eval name)).runOn s =
    match s.find? name with
    | some f => (.ok (.text (evaluationText f.value)), s)
    | none => (.error (.unknownFormula name), s) :=
  runOn_fetch_bind _

theorem runOn_evalCompiled : (perform (.evalCompiled name)).runOn s =
    match s.find? name with
    | some f =>
      match f.compiledValue with
      | .ok value => (.ok (.text (evaluationText value)), s)
      | .error error => (.error (.formula error), s)
    | none => (.error (.unknownFormula name), s) := by
  rw [perform, runOn_fetch_bind]
  cases s.find? name with
  | none => rfl
  | some f =>
    simp only [runOn_bind, runOn_ofParse]
    cases f.compiledValue <;> rfl

theorem runOn_list : (perform (.list name)).runOn s =
    match s.find? name with
    | some f => (.ok (.text (listText name f)), s)
    | none => (.error (.unknownFormula name), s) :=
  runOn_fetch_bind _

end RunOn

/-- What a command does to a session when it is not refused: one of three changes, each under its
conditions, or nothing. -/
inductive Effect (s : Session) : Command → Session → Prop
  | created {name source : String} {f : Formula} : s.find? name = none →
    Formula.parse s.registry source = .ok f →
    Effect s (.create name source) ⟨s.formulas ++ [(name, f)]⟩
  | compiled {name : String} {f : Formula} : s.find? name = some f →
    Effect s (.compile name) (s.replace name f.compile)
  | assigned {name argument : String} {value : Float} {f g : Formula} : s.find? name = some f →
    f.assign argument value = .ok g → Effect s (.set name argument value) (s.replace name g)
  | looked {command : Command} : command.changes = false → Effect s command s

/-- A command is refused before it changes anything, or it has its effect. -/
theorem perform_cases (command : Command) (s : Session) :
    (∃ refusal, (perform command).runOn s = (.error refusal, s)) ∨
      ∃ reply next, (perform command).runOn s = (.ok reply, next) ∧ s.Effect command next := by
  cases command with
  | blank => exact Or.inr ⟨_, _, rfl, .looked rfl⟩
  | exit => exact Or.inr ⟨_, _, rfl, .looked rfl⟩
  | help => exact Or.inr ⟨_, _, rfl, .looked rfl⟩
  | clear => exact Or.inr ⟨_, _, rfl, .looked rfl⟩
  | create name source =>
    rw [runOn_create]
    cases hn : s.find? name with
    | some f => exact Or.inl ⟨_, rfl⟩
    | none =>
      cases hp : Formula.parse s.registry source with
      | error error => exact Or.inl ⟨_, rfl⟩
      | ok f => exact Or.inr ⟨_, _, rfl, .created hn hp⟩
  | compile name =>
    rw [runOn_compile]
    cases hn : s.find? name with
    | none => exact Or.inl ⟨_, rfl⟩
    | some f => exact Or.inr ⟨_, _, rfl, .compiled hn⟩
  | set name argument value =>
    rw [runOn_set]
    cases hn : s.find? name with
    | none => exact Or.inl ⟨_, rfl⟩
    | some f =>
      simp only
      cases ha : f.assign argument value with
      | error error => exact Or.inl ⟨_, rfl⟩
      | ok g => exact Or.inr ⟨_, _, rfl, .assigned hn ha⟩
  | eval name =>
    rw [runOn_eval]
    cases s.find? name with
    | none => exact Or.inl ⟨_, rfl⟩
    | some f => exact Or.inr ⟨_, _, rfl, .looked rfl⟩
  | evalCompiled name =>
    rw [runOn_evalCompiled]
    cases s.find? name with
    | none => exact Or.inl ⟨_, rfl⟩
    | some f =>
      simp only
      cases f.compiledValue with
      | error error => exact Or.inl ⟨_, rfl⟩
      | ok value => exact Or.inr ⟨_, _, rfl, .looked rfl⟩
  | list name =>
    rw [runOn_list]
    cases s.find? name with
    | none => exact Or.inl ⟨_, rfl⟩
    | some f => exact Or.inr ⟨_, _, rfl, .looked rfl⟩

theorem answer_cases (line : String) (s : Session) :
    (∃ refusal, s.answer line = (.error refusal, s)) ∨
      ∃ command reply next, Command.read line = .ok command ∧ s.answer line = (.ok reply, next) ∧
        s.Effect command next := by
  unfold answer
  cases hr : Command.read line with
  | error refusal => exact Or.inl ⟨refusal, rfl⟩
  | ok command =>
    rcases perform_cases command s with ⟨refusal, h⟩ | ⟨reply, next, h, he⟩
    · exact Or.inl ⟨refusal, h⟩
    · exact Or.inr ⟨command, reply, next, rfl, h, he⟩

end Session

end Formulary
