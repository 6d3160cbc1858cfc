import JitFrames.ExtensionTable
import JitFrames.FrameFilter
import JitFrames.Unwinder

/-! The two tables of a debugger that runs the library: its unwinders and its frame filters. Installing a
configuration puts an enabled unwinder and an enabled filter under one name and priority. -/
namespace JitFrames

structure Installation where
  unwinders : ExtensionTable Unwinder := .empty
  filters : ExtensionTable FrameFilter := .empty

def Installation.install (i : Installation) (c : Config) : Traced Installation := do
  log (.installing c.name c.priority)
  let (_, unwinders) ← i.unwinders.register c.name c.priority { config := c }
  let (_, filters) ← i.filters.register c.name c.priority (.ofConfig c)
  return { unwinders, filters }

@[simp] theorem Installation.value_install (i : Installation) (c : Config) :
    (i.install c).value =
      { unwinders := i.unwinders.insert c.name c.priority { config := c }
        filters := i.filters.insert c.name c.priority (.ofConfig c) } := by
  simp [Installation.install]

end JitFrames
