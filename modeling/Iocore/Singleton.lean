import Iocore.Defs

/-!
# Singletons

`Singleton<T>` keeps the pointer to the only object of its class.  The pointer
is null before `Init` and after `Destroy`, and in between `Instance` may be
called.  The class takes no lock.
-/

namespace Iocore.Singleton

variable {T : Type} (build : Build)

def init (ptr : Option T) (new : T) : Code (Option T) := do
  build.assert ptr.isNone
  return some new

/-- `Instance` -/
def get (ptr : Option T) : Code T := do
  build.assert ptr.isSome
  deref ptr

def destroy (ptr : Option T) : Code (Option T) := do
  build.assert ptr.isSome
  return none

@[simp] theorem init_none (new : T) : init build none new = .ok (some new) := by
  simp [init, pure, Except.pure]

@[simp] theorem get_some (t : T) : get build (some t) = .ok t := by
  simp [get]

@[simp] theorem destroy_some (t : T) : destroy build (some t) = .ok none := by
  simp [destroy, pure, Except.pure]

end Iocore.Singleton
