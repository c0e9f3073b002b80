import JosKernel.Lib.Transition
import JosKernel.System.Machine

namespace Jos

namespace Locking

-- Where a CPU is

inductive Mode
  | user
  | kernel
  deriving DecidableEq, Repr

inductive LockSite
  | i386Init
  | mpMain
  | trapHalted (mode : Mode)
  | trapUser
  deriving DecidableEq, Repr

inductive UnlockSite
  | envRun
  | schedHalt
  deriving DecidableEq, Repr

/-- The points of the kernel's code between which a CPU goes on, and the places outside of it. -/
inductive Point (C : Type)
  | off
  | user
  | halted
  | i386Init
  | bootAps (rest : List C)
  | bootWait (started : C) (rest : List C)
  | mpMain
  | mpStatus
  | lock (site : LockSite)
  | lockOwner (site : LockSite)
  | lockXchg (site : LockSite)
  | lockRecord (site : LockSite)
  | alreadyHolding
  | trap (mode : Mode)
  | trapHlt (mode : Mode)
  | trapStatus (mode : Mode)
  | trapMode (mode : Mode)
  | trapUser
  | trapDispatch (mode : Mode)
  | pageFaultHandler
  | syscall
  | envDestroy
  | trapDone
  | schedYield
  | schedHalt
  | envRun
  | unlock (site : UnlockSite)
  | unlockOwner (site : UnlockSite)
  | unlockClear (site : UnlockSite)
  | unlockXchg (site : UnlockSite)
  | notHeld
  | envPopTf
  | hlt
  | monitor (holding : Bool)

def LockSite.resume {C : Type} (cpus : List C) : LockSite → Point C
  | i386Init => .bootAps cpus
  | mpMain => .schedYield
  | trapHalted mode => .trapMode mode
  | trapUser => .trapUser

def UnlockSite.resume {C : Type} : UnlockSite → Point C
  | envRun => .envPopTf
  | schedHalt => .hlt

-- What happens at the points

inductive Mark
  | enter
  | acquire
  | release
  | leave
  deriving DecidableEq, Repr

inductive Phase
  | outside
  | waiting
  | holding
  | leaving
  deriving DecidableEq, Repr

inductive Phase.Step : Phase → Mark → Phase → Prop
  | enter : Step .outside .enter .waiting
  | acquire : Step .waiting .acquire .holding
  | release : Step .holding .release .leaving
  | leave : Step .leaving .leave .outside

variable {C : Type}

namespace Point

def phase : Point C → Phase
  | off | user | halted | i386Init | mpMain => .outside
  | mpStatus | lock _ | lockOwner _ | lockXchg _ | alreadyHolding | trap _ | trapHlt _ | trapStatus _ | trapMode .user |
    monitor false => .waiting
  | lockRecord _ | bootAps _ | bootWait .. | trapMode .kernel | trapUser | trapDispatch _ | pageFaultHandler | syscall |
    envDestroy | trapDone | schedYield | schedHalt | envRun | unlock _ | unlockOwner _ | unlockClear _ | unlockXchg _ |
    notHeld | monitor true => .holding
  | envPopTf | hlt => .leaving

def recorded (p : Point C) : Bool :=
  match p with
  | lockRecord _ | unlockXchg _ => false
  | _ => p.phase = .holding

def asleep : Point C → Bool
  | unlock .schedHalt | unlockOwner .schedHalt | unlockClear .schedHalt | unlockXchg .schedHalt | hlt | halted |
    trap .kernel | trapHlt .kernel | trapStatus .kernel => true
  | _ => false

def wrong : Point C → Bool
  | alreadyHolding | notHeld => true
  | lock site | lockOwner site | lockXchg site | lockRecord site => site = .trapHalted .user
  | _ => false

def panics : Point C → Bool
  | bootAps _ | trapMode _ | trapUser | trapDispatch _ | pageFaultHandler | syscall | envDestroy | trapDone | schedYield |
    envRun => true
  | _ => false

theorem holding_of_recorded {p : Point C} (recorded : p.recorded = true) : p.phase = .holding := by
  cases p <;> first
    | exact of_decide_eq_true recorded
    | cases recorded

theorem monitor_phase {p : Point C} (panics : p.panics = true) :
    (monitor (p.phase = .holding) : Point C).phase = p.phase ∧
      (monitor (p.phase = .holding) : Point C).recorded = p.recorded := by
  cases p with
  | trapMode mode => cases mode <;> exact ⟨rfl, rfl⟩
  | bootAps | trapUser | trapDispatch | pageFaultHandler | syscall | envDestroy | trapDone | schedYield | envRun =>
    exact ⟨rfl, rfl⟩
  | _ => cases panics

end Point

theorem LockSite.resume_phase {cpus : List C} {site : LockSite} (right : (Point.lockRecord site : Point C).wrong = false) :
    (site.resume cpus).phase = .holding ∧ (site.resume cpus).recorded = true := by
  cases site with
  | trapHalted mode =>
    cases mode with
    | user => simp [Point.wrong] at right
    | kernel => exact ⟨rfl, rfl⟩
  | i386Init | mpMain | trapUser => exact ⟨rfl, rfl⟩

structure Shared (C : Type) where
  locked : Bool
  cpu : Option C
  cpuStatus : C → CpuStatus
  panicstr : Bool

section Code

variable [DecidableEq C]

def Shared.setStatus (sh : Shared C) (c : C) (status : CpuStatus) : Shared C :=
  { sh with cpuStatus := Function.update sh.cpuStatus c status }

/-- What the CPU `c` does next. What the code decides by other data may go either way. -/
inductive Moves (cpus : List C) (c : C) (sh : Shared C) : Point C → Option Mark → Shared C → Point C → Prop
  -- kern/init.c
  | init : Moves cpus c sh .i386Init (some .enter) sh (.lock .i386Init)
  | bootSelf (rest : List C) : Moves cpus c sh (.bootAps (c :: rest)) none sh (.bootAps rest)
  | bootStarted (other : C) (rest : List C) (started : sh.cpuStatus other = .started) :
      Moves cpus c sh (.bootWait other rest) none sh (.bootAps rest)
  | bootDone : Moves cpus c sh (.bootAps []) none sh .schedYield
  | mpMain : Moves cpus c sh .mpMain (some .enter) sh .mpStatus
  | mpStatus : Moves cpus c sh .mpStatus none (sh.setStatus c .started) (.lock .mpMain)
  -- kern/spinlock.c
  | lockFree (site : LockSite) (free : sh.locked = false) : Moves cpus c sh (.lock site) none sh (.lockXchg site)
  | lockTaken (site : LockSite) (taken : sh.locked = true) : Moves cpus c sh (.lock site) none sh (.lockOwner site)
  | lockOther (site : LockSite) (other : sh.cpu ≠ some c) : Moves cpus c sh (.lockOwner site) none sh (.lockXchg site)
  | lockOwn (site : LockSite) (own : sh.cpu = some c) : Moves cpus c sh (.lockOwner site) none sh .alreadyHolding
  | spin (site : LockSite) (taken : sh.locked = true) : Moves cpus c sh (.lockXchg site) none sh (.lockXchg site)
  | acquire (site : LockSite) (free : sh.locked = false) :
      Moves cpus c sh (.lockXchg site) (some .acquire) { sh with locked := true } (.lockRecord site)
  | record (site : LockSite) : Moves cpus c sh (.lockRecord site) none { sh with cpu := some c } (site.resume cpus)
  | unlockFree (site : UnlockSite) (free : sh.locked = false) : Moves cpus c sh (.unlock site) none sh .notHeld
  | unlockTaken (site : UnlockSite) (taken : sh.locked = true) :
      Moves cpus c sh (.unlock site) none sh (.unlockOwner site)
  | unlockOther (site : UnlockSite) (other : sh.cpu ≠ some c) : Moves cpus c sh (.unlockOwner site) none sh .notHeld
  | unlockOwn (site : UnlockSite) (own : sh.cpu = some c) :
      Moves cpus c sh (.unlockOwner site) none sh (.unlockClear site)
  | clear (site : UnlockSite) : Moves cpus c sh (.unlockClear site) none { sh with cpu := none } (.unlockXchg site)
  | release (site : UnlockSite) :
      Moves cpus c sh (.unlockXchg site) (some .release) { sh with locked := false } site.resume
  -- kern/trap.c
  | trapPanicking (mode : Mode) (panicking : sh.panicstr = true) : Moves cpus c sh (.trap mode) none sh (.trapHlt mode)
  | trapHlt (mode : Mode) : Moves cpus c sh (.trapHlt mode) none sh (.trapStatus mode)
  | trap (mode : Mode) (calm : sh.panicstr = false) : Moves cpus c sh (.trap mode) none sh (.trapStatus mode)
  | trapHalted (mode : Mode) (halted : sh.cpuStatus c = .halted) :
      Moves cpus c sh (.trapStatus mode) none (sh.setStatus c .started) (.lock (.trapHalted mode))
  | trapAwake (mode : Mode) (awake : sh.cpuStatus c ≠ .halted) :
      Moves cpus c sh (.trapStatus mode) none (sh.setStatus c .started) (.trapMode mode)
  | trapFromUser : Moves cpus c sh (.trapMode .user) none sh (.lock .trapUser)
  | trapFromKernel : Moves cpus c sh (.trapMode .kernel) none sh (.trapDispatch .kernel)
  | trapZombie : Moves cpus c sh .trapUser none sh .schedYield
  | trapUser : Moves cpus c sh .trapUser none sh (.trapDispatch .user)
  | dispatchPageFault : Moves cpus c sh (.trapDispatch .user) none sh .pageFaultHandler
  | dispatchSyscall (mode : Mode) : Moves cpus c sh (.trapDispatch mode) none sh .syscall
  | dispatchTimer (mode : Mode) : Moves cpus c sh (.trapDispatch mode) none sh .schedYield
  | dispatchSpurious (mode : Mode) : Moves cpus c sh (.trapDispatch mode) none sh .trapDone
  | dispatchUnexpected : Moves cpus c sh (.trapDispatch .user) none sh .envDestroy
  | faultUpcall : Moves cpus c sh .pageFaultHandler none sh .envRun
  | faultDestroy : Moves cpus c sh .pageFaultHandler none sh .envDestroy
  | syscallReturn : Moves cpus c sh .syscall none sh .trapDone
  | syscallYield : Moves cpus c sh .syscall none sh .schedYield
  | syscallDestroy : Moves cpus c sh .syscall none sh .envDestroy
  | trapRun : Moves cpus c sh .trapDone none sh .envRun
  | trapYield : Moves cpus c sh .trapDone none sh .schedYield
  -- kern/env.c
  | destroyOther : Moves cpus c sh .envDestroy none sh .trapDone
  | destroyCurrent : Moves cpus c sh .envDestroy none sh .schedYield
  | run : Moves cpus c sh .envRun none sh (.unlock .envRun)
  | pop : Moves cpus c sh .envPopTf (some .leave) sh .user
  -- kern/sched.c
  | yieldRun : Moves cpus c sh .schedYield none sh .envRun
  | yieldHalt : Moves cpus c sh .schedYield none sh .schedHalt
  | haltMonitor : Moves cpus c sh .schedHalt none sh (.monitor true)
  | haltMark : Moves cpus c sh .schedHalt none (sh.setStatus c .halted) (.unlock .schedHalt)
  | halt : Moves cpus c sh .hlt (some .leave) sh .halted
  -- the processor
  | userTrap : Moves cpus c sh .user (some .enter) sh (.trap .user)
  | interrupt : Moves cpus c sh .halted (some .enter) sh (.trap .kernel)
  | panic (p : Point C) (panics : p.panics = true) :
      Moves cpus c sh p none { sh with panicstr := true } (.monitor (p.phase = .holding))

structure State (C : Type) where
  shared : Shared C
  point : C → Point C

inductive Step (cpus : List C) (s : State C) : C × Option Mark → State C → Prop
  | move (c : C) (mark : Option Mark) (sh : Shared C) (p : Point C)
      (moves : Moves cpus c s.shared (s.point c) mark sh p) :
      Step cpus s (c, mark) ⟨sh, Function.update s.point c p⟩
  | startAp (c started : C) (rest : List C) (here : s.point c = .bootAps (started :: rest)) (other : started ≠ c)
      (off : s.point started = .off) :
      Step cpus s (c, none)
        ⟨s.shared, Function.update (Function.update s.point started .mpMain) c (.bootWait started rest)⟩

def booting (boot : C) : State C where
  shared := ⟨false, none, Function.update (fun _ => .unused) boot .started, false⟩
  point := Function.update (fun _ => .off) boot .i386Init

def markOf (c : C) (label : C × Option Mark) : Option Mark := if label.1 = c then label.2 else none

end Code

-- What a move does to the lock

inductive Effect (c : C) (sh : Shared C) (p : Point C) : Option Mark → Shared C → Point C → Prop
  | quiet (sh' : Shared C) (p' : Point C) (phase : p'.phase = p.phase) (recorded : p'.recorded = p.recorded)
      (locked : sh'.locked = sh.locked) (cpu : sh'.cpu = sh.cpu) : Effect c sh p none sh' p'
  | enter (p' : Point C) (outside : p.phase = .outside) (waiting : p'.phase = .waiting) : Effect c sh p (some .enter) sh p'
  | acquire (p' : Point C) (free : sh.locked = false) (waiting : p.phase = .waiting) (holding : p'.phase = .holding)
      (unrecorded : p'.recorded = false) : Effect c sh p (some .acquire) { sh with locked := true } p'
  | record (p' : Point C) (holding : p.phase = .holding) (holding' : p'.phase = .holding) (recorded : p'.recorded = true) :
      Effect c sh p none { sh with cpu := some c } p'
  | clear (p' : Point C) (holding : p.phase = .holding) (holding' : p'.phase = .holding)
      (unrecorded : p'.recorded = false) : Effect c sh p none { sh with cpu := none } p'
  | release (p' : Point C) (holding : p.phase = .holding) (unrecorded : p.recorded = false) (leaving : p'.phase = .leaving) :
      Effect c sh p (some .release) { sh with locked := false } p'
  | leave (p' : Point C) (leaving : p.phase = .leaving) (outside : p'.phase = .outside) :
      Effect c sh p (some .leave) sh p'

variable {c : C} {sh sh' : Shared C} {p p' : Point C} {mark : Option Mark}

def Phase.Follows (before after : Phase) : Option Mark → Prop
  | none => after = before
  | some mark => Phase.Step before mark after

theorem Effect.phase (effect : Effect c sh p mark sh' p') : p.phase.Follows p'.phase mark := by
  cases effect with
  | quiet _ _ phase => exact phase
  | record _ holding holding' | clear _ holding holding' => exact holding'.trans holding.symm
  | enter _ outside waiting =>
    rw [outside, waiting]
    exact .enter
  | acquire _ free waiting holding =>
    rw [waiting, holding]
    exact .acquire
  | release _ holding unrecorded leaving =>
    rw [holding, leaving]
    exact .release
  | leave _ leaving outside =>
    rw [leaving, outside]
    exact .leave

structure Fits (c : C) (sh : Shared C) (p : Point C) : Prop where
  right : p.wrong = false
  asleep : sh.cpuStatus c = .halted ↔ p.asleep = true

/-- The lock is taken exactly if a CPU holds it, which then is the only one, and it names that CPU. -/
structure Locked (sh : Shared C) (point : C → Point C) : Prop where
  locked : sh.locked = true ↔ ∃ c, (point c).phase = .holding
  unique : ∀ c c', (point c).phase = .holding → (point c').phase = .holding → c = c'
  cpu : ∀ c, sh.cpu = some c ↔ (point c).recorded = true

theorem Locked.held {point point' : C → Point C} (before : Locked sh point)
    (phase : ∀ c, (point' c).phase = .holding ↔ (point c).phase = .holding)
    (locked : sh'.locked = sh.locked) (cpu : ∀ c, sh'.cpu = some c ↔ (point' c).recorded = true) : Locked sh' point' where
  locked := by
    rw [locked, before.locked]
    simp only [phase]
  unique c c' holding holding' := before.unique c c' ((phase c).mp holding) ((phase c').mp holding')
  cpu := cpu

variable [DecidableEq C] {cpus : List C}

theorem Moves.effect (moves : Moves cpus c sh p mark sh' p') (fits : Fits c sh p) : Effect c sh p mark sh' p' := by
  cases moves with
  | init | mpMain | userTrap | interrupt => exact .enter _ rfl rfl
  | acquire site free => exact .acquire _ free rfl rfl rfl
  | record site =>
    obtain ⟨holding, recorded⟩ := LockSite.resume_phase fits.right
    exact .record _ rfl holding recorded
  | clear => exact .clear _ rfl rfl rfl
  | release site => cases site <;> exact .release _ rfl rfl rfl
  | pop | halt => exact .leave _ rfl rfl
  | trapAwake mode awake =>
    cases mode with
    | user => exact .quiet _ _ rfl rfl rfl rfl
    | kernel => exact absurd (fits.asleep.mpr rfl) awake
  | panic _ panics =>
    obtain ⟨phase, recorded⟩ := Point.monitor_phase panics
    exact .quiet _ _ phase recorded rfl rfl
  | _ => exact .quiet _ _ rfl rfl rfl rfl

theorem Moves.others (moves : Moves cpus c sh p mark sh' p') {other : C} (different : other ≠ c) :
    sh'.cpuStatus other = sh.cpuStatus other := by
  cases moves with
  | mpStatus | trapHalted | trapAwake | haltMark => exact Function.update_of_ne different ..
  | _ => rfl

/-- The points that are never reached stay unreached, and only a CPU that sleeps is marked as halted. -/
theorem Moves.fits (moves : Moves cpus c sh p mark sh' p') (fits : Fits c sh p)
    (locked : p.phase = .holding → sh.locked = true) (cpu : sh.cpu = some c ↔ p.recorded = true) : Fits c sh' p' := by
  have started : ∀ status, (sh.setStatus c status).cpuStatus c = status := fun _ => Function.update_self ..
  cases moves with
  | lockOwn site own => cases cpu.mp own
  | unlockFree site free =>
    rw [locked rfl] at free
    cases free
  | unlockOther site other => exact absurd (cpu.mpr rfl) other
  | mpStatus => exact ⟨rfl, by simp [started, Point.asleep]⟩
  | trapHalted mode halted =>
    cases mode with
    | user => cases fits.asleep.mp halted
    | kernel => exact ⟨rfl, by simp [started, Point.asleep]⟩
  | trapAwake mode awake => exact ⟨rfl, by simp [started, Point.asleep]⟩
  | haltMark => exact ⟨rfl, by simp [started, Point.asleep]⟩
  | lockFree site | lockTaken site | lockOther site | acquire site => exact ⟨fits.right, fits.asleep⟩
  | spin => exact fits
  | record site => exact ⟨by cases site <;> rfl, fits.asleep.trans (by cases site <;> rfl)⟩
  | release site => cases site <;> exact ⟨rfl, fits.asleep⟩
  | unlockTaken site | unlockOwn site | clear site => cases site <;> exact ⟨rfl, fits.asleep⟩
  | trapPanicking mode | trapHlt mode | trap mode => cases mode <;> exact ⟨rfl, fits.asleep⟩
  | panic _ panics =>
    have awake : p.asleep = false := by
      cases p <;> first
        | rfl
        | cases panics
    exact ⟨rfl, fits.asleep.trans (by rw [awake]; exact Iff.rfl)⟩
  | _ => exact ⟨rfl, fits.asleep⟩

-- All CPUs

namespace Locked

variable {point : C → Point C}

theorem update_holding (same : p'.phase = .holding ↔ (point c).phase = .holding) (other : C) :
    (Function.update point c p' other).phase = .holding ↔ (point other).phase = .holding := by
  rw [Function.update_apply]
  split
  · rename_i here
    rw [here, same]
  · exact Iff.rfl

theorem moved (before : Locked sh point) (phase : p'.phase = .holding ↔ (point c).phase = .holding)
    (recorded : p'.recorded = true ↔ (point c).recorded = true) (locked : sh'.locked = sh.locked)
    (cpu : sh'.cpu = sh.cpu) : Locked sh' (Function.update point c p') := by
  refine before.held (update_holding phase) locked ?_
  intro other
  rw [cpu, before.cpu, Function.update_apply]
  split
  · rename_i here
    rw [here, recorded]
  · exact Iff.rfl

theorem write (before : Locked sh point) (holding : (point c).phase = .holding) (holding' : p'.phase = .holding)
    {owner : Option C} (own : ∀ other, owner = some other ↔ other = c ∧ p'.recorded = true) :
    Locked { sh with cpu := owner } (Function.update point c p') := by
  refine before.held (update_holding (iff_of_true holding' holding)) rfl ?_
  intro other
  rw [Function.update_apply]
  refine (own other).trans ?_
  split
  · rename_i here
    exact and_iff_right here
  · rename_i different
    refine iff_of_false (fun both => different both.1) ?_
    intro recorded
    exact different (before.unique other c (Point.holding_of_recorded recorded) holding)

theorem acquire (before : Locked sh point) (free : sh.locked = false) (holding : p'.phase = .holding)
    (unrecorded : p'.recorded = false) : Locked { sh with locked := true } (Function.update point c p') := by
  have nobody : ∀ other, (point other).phase ≠ .holding := by
    intro other holds
    have taken := before.locked.mpr ⟨other, holds⟩
    rw [free] at taken
    cases taken
  have only : ∀ other, (Function.update point c p' other).phase = .holding → other = c := by
    intro other holds
    by_contra different
    rw [Function.update_of_ne different] at holds
    exact nobody other holds
  constructor
  · exact iff_of_true rfl ⟨c, by rw [Function.update_self, holding]⟩
  · intro one other holds holds'
    rw [only one holds, only other holds']
  · intro other
    refine (before.cpu other).trans ?_
    rw [Function.update_apply]
    split
    · rename_i here
      rw [here, unrecorded]
      exact iff_of_false (fun recorded => nobody c (Point.holding_of_recorded recorded)) (by simp)
    · exact Iff.rfl

theorem release (before : Locked sh point) (holding : (point c).phase = .holding)
    (unrecorded : (point c).recorded = false) (leaving : p'.phase = .leaving) :
    Locked { sh with locked := false } (Function.update point c p') := by
  have nobody : ∀ other, (Function.update point c p' other).phase ≠ .holding := by
    intro other
    rw [Function.update_apply]
    split
    · rw [leaving]
      decide
    · rename_i different
      exact fun holds => different (before.unique other c holds holding)
  constructor
  · exact iff_of_false (by simp) (fun ⟨other, holds⟩ => nobody other holds)
  · exact fun one other holds _ => absurd holds (nobody one)
  · intro other
    refine (before.cpu other).trans (iff_of_false ?_ fun recorded => nobody other (Point.holding_of_recorded recorded))
    intro recorded
    have here : other = c := before.unique other c (Point.holding_of_recorded recorded) holding
    rw [here, unrecorded] at recorded
    cases recorded

theorem effect (before : Locked sh point) (effect : Effect c sh (point c) mark sh' p') :
    Locked sh' (Function.update point c p') := by
  have outside : ∀ {p : Point C}, p.phase ≠ .holding → ¬ p.recorded = true :=
    fun phase recorded => phase (Point.holding_of_recorded recorded)
  cases effect with
  | quiet _ _ phase recorded locked cpu => exact before.moved (by rw [phase]) (by rw [recorded]) locked cpu
  | enter _ outside' waiting =>
    have unheld : (point c).phase ≠ .holding := by simp [outside']
    have unheld' : p'.phase ≠ .holding := by simp [waiting]
    exact before.moved (iff_of_false unheld' unheld) (iff_of_false (outside unheld') (outside unheld)) rfl rfl
  | acquire _ free waiting holding unrecorded => exact before.acquire free holding unrecorded
  | record _ holding holding' recorded =>
    refine before.write holding holding' fun other => ?_
    rw [recorded, and_iff_left rfl, Option.some.injEq]
    exact eq_comm
  | clear _ holding holding' unrecorded => exact before.write holding holding' (by simp [unrecorded])
  | release _ holding unrecorded leaving => exact before.release holding unrecorded leaving
  | leave _ leaving outside' =>
    have unheld : (point c).phase ≠ .holding := by simp [leaving]
    have unheld' : p'.phase ≠ .holding := by simp [outside']
    exact before.moved (iff_of_false unheld' unheld) (iff_of_false (outside unheld') (outside unheld)) rfl rfl

end Locked

structure State.Disciplined (s : State C) : Prop where
  fits : ∀ c, Fits c s.shared (s.point c)
  lock : Locked s.shared s.point

variable {s s' : State C} {label : C × Option Mark} {labels : List (C × Option Mark)}

theorem booting_point (boot c : C) : (booting boot).point c = if c = boot then .i386Init else .off :=
  Function.update_apply (fun _ => Point.off) boot Point.i386Init c

theorem booting_phase (boot c : C) : ((booting boot).point c).phase = .outside := by
  rw [booting_point]
  split <;> rfl

theorem booting_disciplined (boot : C) : (booting boot).Disciplined := by
  have unheld : ∀ c, ((booting boot).point c).phase ≠ .holding := by
    intro c
    rw [booting_phase]
    decide
  have awake : ∀ c, (booting boot).shared.cpuStatus c ≠ .halted := by
    intro c
    simp only [booting, Function.update_apply]
    split <;> decide
  refine ⟨?_, ?_, ?_, ?_⟩
  · intro c
    constructor
    · rw [booting_point]
      split <;> rfl
    · refine iff_of_false (awake c) ?_
      rw [booting_point]
      split <;> exact Bool.false_ne_true
  · exact iff_of_false Bool.false_ne_true fun ⟨c, holding⟩ => unheld c holding
  · exact fun c _ holding _ => absurd holding (unheld c)
  · exact fun c => iff_of_false (by simp [booting]) fun recorded => unheld c (Point.holding_of_recorded recorded)

theorem Moves.disciplined {c : C} {sh : Shared C} {p : Point C} {mark : Option Mark} (disciplined : s.Disciplined)
    (moves : Moves cpus c s.shared (s.point c) mark sh p) : State.Disciplined ⟨sh, Function.update s.point c p⟩ := by
  have lock := disciplined.lock
  refine ⟨?_, lock.effect (moves.effect (disciplined.fits c))⟩
  intro other
  by_cases here : other = c
  · rw [here]
    change Fits c sh (Function.update s.point c p c)
    rw [Function.update_self]
    exact moves.fits (disciplined.fits c) (fun holding => lock.locked.mpr ⟨c, holding⟩) (lock.cpu c)
  · change Fits other sh (Function.update s.point c p other)
    rw [Function.update_of_ne here]
    have before := disciplined.fits other
    exact ⟨before.right, by rw [moves.others here]; exact before.asleep⟩

theorem Step.disciplined (disciplined : s.Disciplined) (step : Step cpus s label s') : s'.Disciplined := by
  cases step with
  | move c mark sh p moves => exact moves.disciplined disciplined
  | startAp c started rest here other off =>
    have lock : Locked s.shared (Function.update s.point started .mpMain) := by
      refine disciplined.lock.moved ?_ ?_ rfl rfl <;> rw [off]
      · simp [Point.phase]
      · simp [Point.recorded, Point.phase]
    have point : Function.update s.point started .mpMain c = .bootAps (started :: rest) := by
      rw [Function.update_of_ne (Ne.symm other), here]
    refine ⟨?_, lock.moved ?_ ?_ rfl rfl⟩
    · intro cpu
      have before := disciplined.fits cpu
      simp only [Function.update_apply]
      split
      · rename_i same
        rw [same, here] at before
        rw [same]
        exact ⟨rfl, before.asleep⟩
      · split
        · rename_i same
          rw [same, off] at before
          rw [same]
          exact ⟨rfl, before.asleep⟩
        · exact before
    · rw [point]
      exact Iff.rfl
    · rw [point]
      exact Iff.rfl

-- The marks of one CPU

theorem Step.phase (disciplined : s.Disciplined) (step : Step cpus s label s') (c : C) :
    (s.point c).phase.Follows (s'.point c).phase (markOf c label) := by
  cases step with
  | move mover mark sh p moves =>
    by_cases here : mover = c
    · subst here
      simp only [markOf, if_pos, Function.update_self]
      exact (moves.effect (disciplined.fits mover)).phase
    · simp only [markOf, if_neg here, Function.update_of_ne (Ne.symm here)]
      exact rfl
  | startAp starter started rest here other off =>
    have unmarked : markOf c (starter, none) = none := by
      unfold markOf
      split <;> rfl
    rw [unmarked]
    simp only [Function.update_apply]
    split
    · rename_i same
      rw [same, here]
      exact rfl
    · split
      · rename_i same
        rw [same, off]
        exact rfl
      · exact rfl

def Phase.rest : Phase → List Mark
  | .outside => []
  | .waiting => [.acquire, .release, .leave]
  | .holding => [.release, .leave]
  | .leaving => [.leave]

def passages (n : Nat) : List Mark := (List.replicate n [Mark.enter, .acquire, .release, .leave]).flatten

theorem passages_succ (n : Nat) : passages (n + 1) = [Mark.enter, .acquire, .release, .leave] ++ passages n := rfl

theorem Phase.run_passages {p q : Phase} {marks : List Mark} (run : Transition.Run Phase.Step p marks q) :
    ∃ n, marks ++ q.rest = p.rest ++ passages n := by
  induction run with
  | nil state => exact ⟨0, (List.append_nil _).symm⟩
  | cons first _ ih =>
    obtain ⟨n, whole⟩ := ih
    cases first with
    | enter => exact ⟨n + 1, by rw [List.cons_append, whole, passages_succ]; rfl⟩
    | acquire | release | leave => exact ⟨n, by rw [List.cons_append, whole]; rfl⟩

theorem passages_count {n : Nat} {mark : Mark} : (passages n).count mark = n := by
  induction n with
  | zero => rfl
  | succ n ih =>
    rw [passages_succ, List.count_append, ih]
    cases mark <;> simp +arith

def marks (c : C) (labels : List (C × Option Mark)) : List Mark := Transition.observations (markOf c) labels

/-- The CPU is between `lock_kernel` and `unlock_kernel`: it has taken the lock once more than it has given it back. -/
def Between (c : C) (labels : List (C × Option Mark)) : Prop :=
  (marks c labels).count .release < (marks c labels).count .acquire

instance (c : C) (labels : List (C × Option Mark)) : Decidable (Between c labels) :=
  inferInstanceAs (Decidable (_ < _))

theorem run_phase {boot : C} (run : Transition.Run (Step cpus) (booting boot) labels s) (c : C) :
    Transition.Run Phase.Step .outside (marks c labels) (s.point c).phase := by
  obtain ⟨view, followed, -, phase⟩ := @Transition.Run.simulation _ _ _ _ _ Phase.Step (markOf c)
    (fun s view => s.Disciplined ∧ (s.point c).phase = view) (by
      rintro before label after view ⟨disciplined, rfl⟩ step
      have phase := step.phase disciplined c
      have disciplined' := step.disciplined disciplined
      cases seen : markOf c label with
      | none =>
        rw [seen] at phase
        exact ⟨disciplined', phase⟩
      | some mark =>
        rw [seen] at phase
        exact ⟨_, phase, disciplined', rfl⟩) _ _ _ run .outside ⟨booting_disciplined boot, booting_phase boot c⟩
  rw [phase]
  exact followed

theorem between_iff {boot : C} (run : Transition.Run (Step cpus) (booting boot) labels s) (c : C) :
    Between c labels ↔ (s.point c).phase = .holding := by
  obtain ⟨n, whole⟩ := Phase.run_passages (run_phase run c)
  have acquired := congrArg (List.count .acquire) whole
  have released := congrArg (List.count .release) whole
  rw [List.count_append, List.count_append, passages_count] at acquired released
  unfold Between
  cases phase : (s.point c).phase <;> rw [phase] at acquired released <;>
    simp [Phase.rest] at acquired released ⊢ <;> omega

/-- At most one CPU is between `lock_kernel` and `unlock_kernel`, every way into the kernel and out of it takes the
    lock once and gives it back once, and neither panic of the lock is reached. -/
theorem kernel_lock_discipline {boot : C} (run : Transition.Run (Step cpus) (booting boot) labels s) :
    (∀ c c', Between c labels → Between c' labels → c = c') ∧
      (∀ c, ∃ n, marks c labels <+: (List.replicate n [Mark.enter, .acquire, .release, .leave]).flatten) ∧
      ∀ c, s.point c ≠ .alreadyHolding ∧ s.point c ≠ .notHeld := by
  have disciplined : s.Disciplined :=
    run.invariant (fun _ _ _ disciplined step => step.disciplined disciplined) (booting_disciplined boot)
  refine ⟨?_, ?_, ?_⟩
  · intro c c' between between'
    exact disciplined.lock.unique c c' ((between_iff run c).mp between) ((between_iff run c').mp between')
  · intro c
    obtain ⟨n, whole⟩ := Phase.run_passages (run_phase run c)
    exact ⟨n, _, whole⟩
  · intro c
    have right := (disciplined.fits c).right
    constructor
    · intro here
      rw [here] at right
      cases right
    · intro here
      rw [here] at right
      cases right

/-- The boot CPU starts the other one, which waits for the lock until the first environment runs. -/
theorem secondCpu_locks : ∃ labels s, Transition.Run (Step [false, true]) (booting false) labels s ∧ Between true labels :=
  ⟨_, _, .cons (.move false _ _ _ .init) <| .cons (.move false _ _ _ (.lockFree _ rfl)) <|
    .cons (.move false _ _ _ (.acquire _ rfl)) <| .cons (.move false _ _ _ (.record _)) <|
    .cons (.move false _ _ _ (.bootSelf _)) <| .cons (.startAp false true [] rfl Bool.noConfusion rfl) <|
    .cons (.move true _ _ _ .mpMain) <| .cons (.move true _ _ _ .mpStatus) <|
    .cons (.move true _ _ _ (.lockTaken _ rfl)) <| .cons (.move true _ _ _ (.lockOther _ (by decide))) <|
    .cons (.move true _ _ _ (.spin _ rfl)) <| .cons (.move false _ _ _ (.bootStarted true [] rfl)) <|
    .cons (.move false _ _ _ .bootDone) <| .cons (.move false _ _ _ .yieldRun) <|
    .cons (.move false _ _ _ .run) <| .cons (.move false _ _ _ (.unlockTaken _ rfl)) <|
    .cons (.move false _ _ _ (.unlockOwn _ rfl)) <| .cons (.move false _ _ _ (.clear _)) <|
    .cons (.move false _ _ _ (.release _)) <| .cons (.move false _ _ _ .pop) <|
    .cons (.move true _ _ _ (.acquire _ rfl)) (.nil _), by decide⟩

theorem kernel_lock_discipline_two : ∃ labels s, Transition.Run (Step [false, true]) (booting false) labels s ∧
    Between true labels ∧ ¬ Between false labels := by
  obtain ⟨labels, s, run, between⟩ := secondCpu_locks
  refine ⟨labels, s, run, between, fun both => ?_⟩
  cases (kernel_lock_discipline run).1 true false between both

end Locking

end Jos
