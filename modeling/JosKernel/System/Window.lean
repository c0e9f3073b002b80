import JosKernel.Pmap.Window
import JosKernel.System.Freeing

namespace Jos

theorem Spaces.userWindow {reserved : Nat → Prop} {k : Kernel} {g : Layout} (spaces : Spaces reserved k g) {e root : Nat}
    (inUse : k.InUse e) (pml4e : (k.envs e).envPml4e = some root) : k.mem.UserWindow root :=
  spaces.memory.userWindow (spaces.role inUse pml4e) (spaces.notBoot inUse pml4e)

namespace System

/-- The entry that `env_setup_vm` writes for UVPT shows an environment the entries that the kernel goes by, and
    every environment keeps that entry as long as it lives. -/
theorem user_window {C : Type} [DecidableEq C] :
    (∀ (m : Memory) (root : Nat) (va : Word), m.UserWindow root → va.toNat < 2^48 → m.WindowFaithful root va) ∧
    ∀ (config : BootConfig) (envs : Nat → Env) (ops : List BootOp) (k : Kernel) (events : List (Event C)) (s : System C),
      Transition.Run BootOp.Step (config.kernel envs) ops k →
      Transition.Run (Transition.Guarded Guard Step) (idle k) events s →
      ∀ e root va, s.kernel.InUse e → (s.kernel.envs e).envPml4e = some root → va.toNat < 2^48 →
        s.kernel.mem.UserWindow root ∧ s.kernel.mem.WindowFaithful root va := by
  constructor
  · intro m root va window small
    exact window.faithful small
  · intro config envs ops k events s booted run e root va inUse pml4e small
    obtain ⟨g, spaces⟩ := ((sound_idle booted).run run).spaces
    have window := spaces.userWindow inUse pml4e
    exact ⟨window, window.faithful small⟩

/-- A child for which a page has been mapped at 0x800000 can read all four entries for it. -/
theorem user_window_child : ∃ s : System Bool, (s.kernel.envs 1).envPml4e = some 6 ∧
    s.kernel.mem.UserReads 6 (elementAddr uvpml4e (vpml4e 0x800000)) (6, 0) ∧
    s.kernel.mem.UserReads 6 (elementAddr uvpde (vpdpe 0x800000)) (11, 0) ∧
    s.kernel.mem.UserReads 6 (elementAddr uvpd (vpd 0x800000)) (12, 4) ∧
    s.kernel.mem.UserReads 6 (elementAddr uvpt (pgNum 0x800000)) (13, 0) := by
  have result : (guardedRun allocForChild).map (fun s => ((s.kernel.envs 1).envStatus,
      [(s.kernel.envs 1).envPml4e, s.kernel.mem.child 6 0, s.kernel.mem.child 11 0, s.kernel.mem.child 12 4])) =
      some (.notRunnable, [some 6, some 11, some 12, some 13]) := by
    rw [guardedRun, smallBoot_eq]
    decide +kernel
  obtain ⟨s, done, shown⟩ := Option.map_eq_some_iff.mp result
  obtain ⟨k, booted, run⟩ := guardedRun_run done
  simp only [Prod.mk.injEq, List.cons.injEq, and_true] at shown
  obtain ⟨status, pml4e, one, two, three⟩ := shown
  have window := (user_window.2 smallMachine (fun _ => default) _ k _ s booted run 1 6 0x800000
    ⟨by decide, by simp [status]⟩ pml4e (by decide)).1
  have faithful := (user_window (C := Bool)).1 s.kernel.mem 6 0x800000 window (by decide)
  refine ⟨s, pml4e, faithful.pml4Entry, ?_, ?_, ?_⟩
  · exact faithful.pdpeEntry 11 one
  · exact faithful.pdeEntry 11 12 one two
  · exact (faithful.pteEntry 11 12 13 one two three).1

end System

end Jos
