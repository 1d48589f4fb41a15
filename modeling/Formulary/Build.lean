import Formulary.Bindings
import Formulary.Fault

namespace Formulary

/-- The making of a part of a formula. It may register names of arguments, look at the bindings
so far, or fail, and it can do nothing else to the bindings. -/
inductive Build (α : Type) where
  | done (value : α)
  | fail (error : Error)
  | register (name : String) (next : Nat → Build α)
  | look (next : Bindings → Build α)

namespace Build

def bind {α β : Type} : Build α → (α → Build β) → Build β
  | .done value, f => f value
  | .fail error, _ => .fail error
  | .register name next, f => .register name fun slot => (next slot).bind f
  | .look next, f => .look fun bindings => (next bindings).bind f

instance : Monad Build where
  pure := .done
  bind := bind

def ofExcept {α : Type} : Except Error α → Build α
  | .ok value => .done value
  | .error error => .fail error

/-- The slot of a name, which is registered if it has none. -/
def slot (name : String) : Build Nat := .register name .done

def bindings : Build Bindings := .look .done

def run {α : Type} : Build α → Bindings → Except Error (α × Bindings)
  | .done value, b => .ok (value, b)
  | .fail error, _ => .error error
  | .register name next, b => (next (b.register name).1).run (b.register name).2
  | .look next, b => (next b).run b

end Build

end Formulary
