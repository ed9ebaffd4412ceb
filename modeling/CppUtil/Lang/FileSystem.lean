import CppUtil.Lang.Numeric
import Mathlib.Logic.Function.Basic

/-!
# Files

A file is the list of its lines. `rename` replaces a file that has the new
name; a file opened for appending is created if it does not exist.
-/

namespace CppUtil.Lang

def FileSystem := Str → Option (List Str)

namespace FileSystem

/-- Nothing if there is no file to be renamed. -/
def rename (fs : FileSystem) (old new : Str) : Option FileSystem :=
  (fs old).map fun lines => Function.update (Function.update fs old none) new (some lines)

def openAppend (fs : FileSystem) (path : Str) : FileSystem :=
  Function.update fs path (some ((fs path).getD []))

def append (fs : FileSystem) (path line : Str) : FileSystem :=
  Function.update fs path ((fs path).map (· ++ [line]))

def remove (fs : FileSystem) (path : Str) : FileSystem := Function.update fs path none

variable {fs : FileSystem}

@[simp] theorem append_self : fs.append path line path = (fs path).map (· ++ [line]) :=
  Function.update_self ..

theorem append_of_ne (h : p ≠ path) : fs.append path line p = fs p :=
  Function.update_of_ne h ..

@[simp] theorem openAppend_self : fs.openAppend path path = some ((fs path).getD []) :=
  Function.update_self ..

theorem openAppend_of_ne (h : p ≠ path) : fs.openAppend path p = fs p :=
  Function.update_of_ne h ..

/-- After a `rename` the new name has the file and the old name has none; the
other files are as they were. -/
theorem rename_spec (hold : fs old = some lines) (hne : new ≠ old) :
    ∃ fs', fs.rename old new = some fs' ∧ fs' new = some lines ∧ fs' old = none ∧
      ∀ p, p ≠ new → p ≠ old → fs' p = fs p := by
  refine ⟨_, by rw [rename, hold]; rfl, Function.update_self .., ?_, fun p hn ho => ?_⟩
  · exact (Function.update_of_ne hne.symm ..).trans (Function.update_self ..)
  · exact (Function.update_of_ne hn ..).trans (Function.update_of_ne ho ..)

@[simp] theorem remove_self : fs.remove path path = none := Function.update_self ..

theorem remove_absent (h : fs p = none) : fs.remove path p = none := by
  by_cases hp : p = path
  · subst hp
    exact remove_self
  · exact (Function.update_of_ne hp ..).trans h

theorem rename_absent (hnew : p ≠ new) (h : fs p = none) :
    (fs.rename old new).getD fs p = none := by
  cases hold : fs old with
  | none =>
    rw [rename, hold]
    exact h
  | some lines =>
    rw [rename, hold]
    exact (Function.update_of_ne hnew ..).trans (remove_absent h)

end FileSystem

end CppUtil.Lang
