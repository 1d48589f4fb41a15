import Formulary.Lowering
import Formulary.Resolve

namespace Formulary

/-- A parsed formula with the extensions that it was parsed with. -/
structure Formula extends Body Term where
  registry : Registry

namespace Formula

def parse (registry : Registry) (source : String) : Except Error Formula := do
  let whole := Fragment.ofString source
  whole.requireBalance
  let (root, arguments) ← (whole.outline.resolve registry).run {}
  return { source, root, arguments, argumentCount := arguments.size, code := none, registry }

/-- The value that an argument has at present. -/
def argument? (f : Formula) (name : String) : Option Float :=
  (f.arguments.slot? name).bind f.arguments.get?

/-- Gives an argument a value other than NaN. -/
def assign (f : Formula) (name : String) (value : Float) : Except Error Formula :=
  match f.arguments.slot? name with
  | none => .error (.unknownArgument name)
  | some slot =>
    if value.isNaN then .error (.notANumber name)
    else .ok { f with arguments := (f.arguments.set? slot value).getD f.arguments }

/-- The value by the tree. There always is one, for parsing keeps every slot within the bindings. -/
def value (f : Formula) : Float :=
  (f.root.eval? f.arguments.values).getD notANumber

def isCompiled (f : Formula) : Bool := f.code.isSome

/-- A formula that has code already is left as it is. -/
def compile (f : Formula) : Formula :=
  { f with toBody := f.toBody.compile }

/-- Lowers the root and compiles what is embedded in it, but not the formula itself. -/
def lower (f : Formula) : Lowered × Formula :=
  (f.root.lower, { f with root := f.root.compileEmbedded })

def compiledValue (f : Formula) : Except Error Float :=
  match f.code with
  | none => .error .notCompiled
  | some code => .ok ((code f.arguments.values).getD notANumber)

/-- Runs the code on other values than the stored ones, which stay. -/
def apply (f : Formula) (values : List Float) : Except Error Float :=
  match f.code with
  | none => .error .notCompiled
  | some code =>
    if values.length = f.argumentCount then .ok ((code values).getD notANumber)
    else .error (.argumentCount f.argumentCount values.length)

end Formula

end Formulary
