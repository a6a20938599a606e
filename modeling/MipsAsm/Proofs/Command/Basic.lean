import MipsAsm.Command.Basic

/-!
# What the command to assemble writes

`Command.assembleFile_writes_only_without_errors` says when the command to assemble can write
anything: its effect can depend on how files and the standard output are written only if the file
can be read and assembles without an error.
-/

set_option autoImplicit false

namespace MipsAsm
namespace Command

/-- The command to assemble writes nothing, unless its file assembles without an error.  Whether it
writes is told from a second system that differs from the first in writing alone. -/
theorem assembleFile_writes_only_without_errors {σ : Type} {system system' : System (StateM σ)}
    (hread : system'.read = system.read) (herror : system'.printError = system.printError)
    {settings : Settings} {arguments : Arguments} {path : String} {s : σ}
    (h : (assembleFile system settings arguments path).run s ≠
      (assembleFile system' settings arguments path).run s) :
    ∃ source s' a, (system.read path).run s = (.ok source, s') ∧
      assemble settings.options source = some a ∧ a.diagnostics.countP Diagnostic.isError = 0 := by
  have hfail : ∀ message, fail system' message = fail system message := by
    intro message
    rw [fail, fail, herror]
  rw [assembleFile, assembleFile, hread, StateT.run_bind, StateT.run_bind] at h
  cases hrun : (system.read path).run s with
  | mk outcome s' =>
    have hpure : (system.read path).run s = pure (outcome, s') := hrun
    rw [hpure, pure_bind, pure_bind] at h
    cases outcome with
    | error p => exact absurd (by simp [hfail]) h
    | ok source =>
      cases hassemble : assemble settings.options source with
      | none => exact absurd (by simp [hassemble, herror]) h
      | some a =>
        refine ⟨source, s', a, rfl, hassemble, ?_⟩
        cases hcount : a.diagnostics.countP Diagnostic.isError with
        | zero => rfl
        | succ n => exact absurd (by simp [hassemble, herror, hcount, hfail]) h

end Command
end MipsAsm
