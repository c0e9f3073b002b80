import JosKernel.Smp.Locking

namespace Jos

namespace Locking

variable {C : Type}

namespace Point

def precedes : Point C → Bool
  | i386Init | lock .i386Init | lockOwner .i386Init | lockXchg .i386Init | lockRecord .i386Init => true
  | _ => false

def boots : Point C → Bool
  | bootAps _ | bootWait .. => true
  | p => p.precedes

def queues : Point C → Bool
  | lock .mpMain | lockOwner .mpMain | lockXchg .mpMain => true
  | _ => false

theorem boots_of_precedes {p : Point C} (precedes : p.precedes = true) : p.boots = true := by
  cases p <;> first
    | rfl
    | exact precedes

theorem queues_ne {p : Point C} (queues : p.queues = true) : p ≠ .off ∧ p.boots = false ∧ p.recorded = false := by
  cases p with
  | lock site | lockOwner site | lockXchg site =>
    cases site <;> first
      | exact ⟨nofun, rfl, rfl⟩
      | cases queues
  | _ => cases queues

end Point

/-- The CPUs while they are started. Of `mpentry_kstack` and of the stack pointers it matters whose stack they point to.
    `boot_aps` has set `mpentry_kstack` for the next CPU if `told`, and a CPU that is `entering` has come to `mpentry.S`
    and not loaded its stack pointer yet. -/
structure Startup (C : Type) where
  state : State C
  mpentryKstack : Option C
  told : Bool
  entering : C → Bool
  rsp : C → Option C

namespace Startup

section Code

variable [DecidableEq C]

inductive Step (cpus : List C) (s : Startup C) : C × Option Mark → Startup C → Prop
  | move (c : C) (mark : Option Mark) (sh : Shared C) (p : Point C)
      (moves : Moves cpus c s.state.shared (s.state.point c) mark sh p) (entered : s.entering c = false) :
      Step cpus s (c, mark) { s with state := ⟨sh, Function.update s.state.point c p⟩ }
  | tell (c started : C) (rest : List C) (here : s.state.point c = .bootAps (started :: rest)) (other : started ≠ c)
      (untold : s.told = false) :
      Step cpus s (c, none) { s with mpentryKstack := some started, told := true }
  | startAp (c started : C) (rest : List C) (here : s.state.point c = .bootAps (started :: rest)) (other : started ≠ c)
      (off : s.state.point started = .off) (told : s.told = true) :
      Step cpus s (c, none) { s with
        state := ⟨s.state.shared,
          Function.update (Function.update s.state.point started .mpMain) c (.bootWait started rest)⟩
        told := false
        entering := Function.update s.entering started true }
  | load (c : C) (entering : s.entering c = true) :
      Step cpus s (c, none) { s with
        entering := Function.update s.entering c false
        rsp := Function.update s.rsp c s.mpentryKstack }

def initial (boot : C) : Startup C where
  state := booting boot
  mpentryKstack := none
  told := false
  entering := fun _ => false
  rsp := fun _ => none

end Code

-- Where the other CPUs are

structure Off (s : Startup C) (c : C) : Prop where
  point : s.state.point c = .off
  status : s.state.shared.cpuStatus c = .unused
  entered : s.entering c = false

inductive Comes (s : Startup C) (c : C) : Nat → Prop
  | entering (point : s.state.point c = .mpMain) (status : s.state.shared.cpuStatus c = .unused)
      (entering : s.entering c = true) (stack : s.mpentryKstack = some c) : Comes s c 3
  | mpMain (point : s.state.point c = .mpMain) (status : s.state.shared.cpuStatus c = .unused)
      (entered : s.entering c = false) (own : s.rsp c = some c) : Comes s c 2
  | mpStatus (point : s.state.point c = .mpStatus) (status : s.state.shared.cpuStatus c = .unused)
      (entered : s.entering c = false) (own : s.rsp c = some c) : Comes s c 1
  | queues (point : (s.state.point c).queues = true) (status : s.state.shared.cpuStatus c = .started)
      (entered : s.entering c = false) (own : s.rsp c = some c) : Comes s c 0

variable {s s' : Startup C} {c d boot : C} {cpus : List C} {n : Nat} {label : C × Option Mark}

theorem Comes.entered (comes : s.Comes c n) (few : n < 3) : s.entering c = false ∧ s.rsp c = some c := by
  cases comes with
  | entering => omega
  | mpMain _ _ entered own | mpStatus _ _ entered own | queues _ _ entered own => exact ⟨entered, own⟩

theorem Comes.entering_iff (comes : s.Comes c n) : s.entering c = true ↔ n = 3 := by
  cases comes with
  | entering _ _ entering => simp [entering]
  | mpMain _ _ entered | mpStatus _ _ entered | queues _ _ entered => simp [entered]

theorem Comes.boots (comes : s.Comes c n) : (s.state.point c).boots = false ∧ s.state.point c ≠ .off := by
  cases comes with
  | entering point | mpMain point | mpStatus point =>
    rw [point]
    exact ⟨rfl, nofun⟩
  | queues point =>
    obtain ⟨on, boots, -⟩ := Point.queues_ne point
    exact ⟨boots, on⟩

theorem Comes.started (comes : s.Comes c n) (status : s.state.shared.cpuStatus c = .started) : n = 0 := by
  cases comes with
  | entering _ unused | mpMain _ unused | mpStatus _ unused =>
    rw [unused] at status
    cases status
  | queues => rfl

theorem Comes.le (comes : s.Comes c n) : n ≤ 3 := by
  cases comes <;> decide

inductive Stage (cpus : List C) (boot : C) (s : Startup C) : Prop
  | before (here : (s.state.point boot).precedes = true) (untold : s.told = false) (off : ∀ c, c ≠ boot → s.Off c)
  | next (rest : List C) (here : s.state.point boot = .bootAps rest) (suffix : rest <:+ cpus)
      (off : ∀ c, c ≠ boot → c ∈ rest ∨ c ∉ cpus → s.Off c)
      (begun : ∀ c, c ≠ boot → c ∈ cpus → c ∉ rest → s.Comes c 0)
      (told : s.told = true → ∃ started tail,
        rest = started :: tail ∧ started ≠ boot ∧ s.mpentryKstack = some started)
  | waits (started : C) (rest : List C) (n : Nat) (here : s.state.point boot = .bootWait started rest)
      (suffix : started :: rest <:+ cpus) (untold : s.told = false) (other : started ≠ boot)
      (off : ∀ c, c ≠ boot → c ∈ rest ∨ c ∉ cpus → s.Off c)
      (begun : ∀ c, c ≠ boot → c ∈ cpus → c ∉ started :: rest → s.Comes c 0) (comes : s.Comes started n)
  | finished (ended : ∀ c, (s.state.point c).boots = false)
      (own : ∀ c, c ≠ boot → s.entering c = false ∧ (s.state.point c ≠ .off → s.rsp c = some c))

structure Sound (cpus : List C) (boot : C) (s : Startup C) : Prop where
  disciplined : s.state.Disciplined
  entered : s.entering boot = false
  stage : s.Stage cpus boot

theorem Comes.elsewhere (comes : s.Comes d 0) (point : s'.state.point d = s.state.point d)
    (status : s'.state.shared = s.state.shared) (entered : s'.entering d = s.entering d) (rsp : s'.rsp d = s.rsp d) :
    s'.Comes d 0 := by
  cases comes with
  | queues here started calm own =>
    exact .queues (by rwa [point]) (by rwa [status]) (entered.trans calm) (rsp.trans own)

theorem off_or_comes {rest begun : List C} (off : ∀ c, c ≠ boot → c ∈ rest ∨ c ∉ cpus → s.Off c)
    (comes : ∀ c, c ≠ boot → c ∈ cpus → c ∉ begun → s.Comes c 0) (other : c ≠ boot)
    (outside : c ∉ rest → c ∉ begun) : s.Off c ∨ s.Comes c 0 := by
  by_cases idle : c ∈ rest ∨ c ∉ cpus
  · exact .inl (off c other idle)
  · rw [not_or, not_not] at idle
    exact .inr (comes c other idle.2 (outside idle.1))

theorem Stage.others (stage : s.Stage cpus boot) (boots : (s.state.point boot).boots = true) (other : c ≠ boot) :
    s.Off c ∨ ∃ n, s.Comes c n := by
  cases stage with
  | before here untold off => exact .inl (off c other)
  | next rest here suffix off begun told => exact (off_or_comes off begun other id).imp_right fun comes => ⟨0, comes⟩
  | waits started rest n here suffix untold different off begun last =>
    by_cases same : c = started
    · exact .inr ⟨n, same ▸ last⟩
    · refine (off_or_comes off begun other fun out => ?_).imp_right fun comes => ⟨0, comes⟩
      simp [same, out]
  | finished ended own =>
    rw [ended boot] at boots
    cases boots

theorem Stage.open_or_finished (stage : s.Stage cpus boot) : (s.state.point boot).boots = true ∨
    (∀ c, (s.state.point c).boots = false) ∧
      ∀ c, c ≠ boot → s.entering c = false ∧ (s.state.point c ≠ .off → s.rsp c = some c) := by
  cases stage with
  | before here => exact .inl (Point.boots_of_precedes here)
  | next rest here | waits started rest n here =>
    rw [here]
    exact .inl rfl
  | finished ended own => exact .inr ⟨ended, own⟩

theorem Stage.booter (stage : s.Stage cpus boot) (boots : (s.state.point c).boots = true) : c = boot := by
  by_contra other
  rcases stage.open_or_finished with open' | ⟨ended, -⟩
  · rcases stage.others open' other with off | ⟨n, comes⟩
    · rw [off.point] at boots
      cases boots
    · rw [comes.boots.1] at boots
      cases boots
  · rw [ended c] at boots
    cases boots

theorem Stage.own (stage : s.Stage cpus boot) (other : c ≠ boot) (on : s.state.point c ≠ .off)
    (entered : s.entering c = false) : s.rsp c = some c := by
  rcases stage.open_or_finished with open' | ⟨-, own⟩
  · rcases stage.others open' other with off | ⟨n, comes⟩
    · exact absurd off.point on
    · have calm : n ≠ 3 := by
        intro three
        rw [comes.entering_iff.mpr three] at entered
        cases entered
      have few := comes.le
      exact (comes.entered (by omega)).2
  · exact (own c other).2 on

theorem Stage.entering (stage : s.Stage cpus boot) (other : c ≠ boot) (entering : s.entering c = true) :
    s.Comes c 3 := by
  rcases stage.open_or_finished with open' | ⟨-, own⟩
  · rcases stage.others open' other with off | ⟨n, comes⟩
    · rw [off.entered] at entering
      cases entering
    · have three := comes.entering_iff.mp entering
      subst three
      exact comes
  · rw [(own c other).1] at entering
    cases entering

theorem Sound.locked (sound : s.Sound cpus boot) (holding : (s.state.point boot).phase = .holding) (other : c ≠ boot) :
    s.state.shared.locked = true ∧ s.state.shared.cpu ≠ some c := by
  have lock := sound.disciplined.lock
  refine ⟨lock.locked.mpr ⟨boot, holding⟩, fun own => other ?_⟩
  exact lock.unique c boot (Point.holding_of_recorded ((lock.cpu c).mp own)) holding

theorem Sound.tell (sound : s.Sound cpus boot) {started : C} {rest : List C}
    (here : s.state.point c = .bootAps (started :: rest)) (other : started ≠ c) :
    Sound cpus boot { s with mpentryKstack := some started, told := true } := by
  have same : c = boot := sound.stage.booter (by rw [here]; rfl)
  subst same
  refine ⟨sound.disciplined, sound.entered, ?_⟩
  cases sound.stage with
  | before precedes =>
    rw [here] at precedes
    cases precedes
  | next _ at' suffix off begun told =>
    rw [here] at at'
    cases at'
    refine .next (started :: rest) here suffix (fun d apart idle => ?_) (fun d apart listed out => ?_)
      fun _ => ⟨started, rest, rfl, other, rfl⟩
    · have before := off d apart idle
      exact ⟨before.point, before.status, before.entered⟩
    · exact (begun d apart listed out).elsewhere rfl rfl rfl rfl
  | waits _ _ _ at' =>
    rw [here] at at'
    cases at'
  | finished ended =>
    have closed := ended c
    rw [here] at closed
    cases closed

variable [DecidableEq C]

-- Moves

section Moves

variable {sh sh' : Shared C} {p p' : Point C} {mark : Option Mark}

theorem moves_on (moves : Moves cpus c sh p mark sh' p') : p ≠ .off ∧ p' ≠ .off := by
  constructor
  · intro off
    subst off
    cases moves with
    | panic _ panics => cases panics
  · intro off
    subst off
    generalize gone : (Point.off : Point C) = p' at moves
    cases moves with
    | record site => cases site <;> cases gone
    | release site => cases site <;> cases gone
    | _ => cases gone

theorem moves_boots (moves : Moves cpus c sh p mark sh' p') (later : p'.boots = true) : p.boots = true := by
  cases moves with
  | record site | release site => cases site <;> first
    | rfl
    | cases later
  | lockFree site | lockTaken site | lockOther site | spin site | acquire site =>
    cases site <;> first
      | rfl
      | cases later
  | unlockTaken site | unlockOwn site | clear site => cases later
  | _ => first
    | rfl
    | cases later

theorem moves_precedes (moves : Moves cpus c sh p mark sh' p') (here : p.precedes = true) (right : p'.wrong = false) :
    p'.precedes = true ∨ p' = .bootAps cpus := by
  cases moves with
  | lockOwn => cases right
  | record site => cases site <;> first
    | exact .inr rfl
    | cases here
  | lockFree site | lockTaken site | lockOther site | spin site | acquire site =>
    cases site <;> first
      | exact .inl rfl
      | cases here
  | init => exact .inl rfl
  | panic _ panics =>
    cases p <;> first
      | (cases panics; done)
      | (cases here)
  | _ => cases here

theorem moves_queues (moves : Moves cpus c sh p mark sh' p') (here : p.queues = true) (locked : sh.locked = true)
    (cpu : sh.cpu ≠ some c) : p'.queues = true ∧ sh'.cpuStatus c = sh.cpuStatus c := by
  cases moves with
  | lockFree _ free | acquire _ free =>
    rw [locked] at free
    cases free
  | lockOwn _ own => exact absurd own cpu
  | lockTaken site | lockOther site | spin site =>
    cases site <;> first
      | exact ⟨rfl, rfl⟩
      | cases here
  | panic _ panics =>
    cases p <;> first
      | cases here
      | cases panics
  | _ => cases here

end Moves

-- One step

def moved (s : Startup C) (c : C) (sh : Shared C) (p : Point C) : Startup C :=
  { s with state := ⟨sh, Function.update s.state.point c p⟩ }

section Others

variable {sh : Shared C} {p : Point C} {mark : Option Mark}

theorem Off.ne (off : s.Off d) (moves : Moves cpus c s.state.shared (s.state.point c) mark sh p) : d ≠ c := by
  intro same
  subst same
  exact (moves_on moves).1 off.point

theorem Off.moved (off : s.Off d) (moves : Moves cpus c s.state.shared (s.state.point c) mark sh p) :
    (s.moved c sh p).Off d := by
  have different := off.ne moves
  exact ⟨(Function.update_of_ne different ..).trans off.point, (moves.others different).trans off.status, off.entered⟩

theorem Comes.other (comes : s.Comes d n) (moves : Moves cpus c s.state.shared (s.state.point c) mark sh p)
    (different : d ≠ c) : (s.moved c sh p).Comes d n := by
  have point : (s.moved c sh p).state.point d = s.state.point d := Function.update_of_ne different ..
  have status : (s.moved c sh p).state.shared.cpuStatus d = s.state.shared.cpuStatus d := moves.others different
  cases comes with
  | entering here unused entering stack => exact .entering (point.trans here) (status.trans unused) entering stack
  | mpMain here unused entered own => exact .mpMain (point.trans here) (status.trans unused) entered own
  | mpStatus here unused entered own => exact .mpStatus (point.trans here) (status.trans unused) entered own
  | queues here started entered own => exact .queues (by rwa [point]) (status.trans started) entered own

/-- The CPU that is started comes closer to saying so, while another one holds the lock. -/
theorem Comes.own (comes : s.Comes c n) (moves : Moves cpus c s.state.shared (s.state.point c) mark sh p)
    (entered : s.entering c = false) (locked : s.state.shared.locked = true) (cpu : s.state.shared.cpu ≠ some c) :
    (s.moved c sh p).Comes c (n - 1) := by
  have point : (s.moved c sh p).state.point c = p := Function.update_self ..
  cases comes with
  | entering _ _ entering =>
    rw [entered] at entering
    cases entering
  | mpMain here unused _ own =>
    rw [here] at moves
    cases moves with
    | mpMain => exact .mpStatus point unused entered own
    | panic _ panics => cases panics
  | mpStatus here unused _ own =>
    rw [here] at moves
    cases moves with
    | mpStatus => exact .queues (by rw [point]; rfl) (Function.update_self ..) entered own
    | panic _ panics => cases panics
  | queues here started _ own =>
    obtain ⟨queues, status⟩ := moves_queues moves here locked cpu
    exact .queues (by rwa [point]) (status.trans started) entered own

theorem Comes.moved (comes : s.Comes d n) (moves : Moves cpus c s.state.shared (s.state.point c) mark sh p)
    (entered : s.entering c = false) (locked : s.state.shared.locked = true) (cpu : s.state.shared.cpu ≠ some c) :
    (s.moved c sh p).Comes d (if c = d then n - 1 else n) := by
  split
  · rename_i same
    subst same
    exact comes.own moves entered locked cpu
  · rename_i different
    exact comes.other moves (Ne.symm different)

end Others

section Boot

variable {sh : Shared C} {p : Point C} {mark : Option Mark}

theorem Stage.leaves {rest : List C} (off : ∀ c, c ≠ boot → c ∈ rest ∨ c ∉ cpus → s.Off c)
    (begun : ∀ c, c ≠ boot → c ∈ cpus → c ∉ rest → s.Comes c 0)
    (moves : Moves cpus boot s.state.shared (s.state.point boot) mark sh p) (ends : p.boots = false) :
    (s.moved boot sh p).Stage cpus boot := by
  have known : ∀ c, c ≠ boot → s.Off c ∨ s.Comes c 0 := fun c other => off_or_comes off begun other id
  have self : (s.moved boot sh p).state.point boot = p := Function.update_self ..
  have point : ∀ c, c ≠ boot → (s.moved boot sh p).state.point c = s.state.point c :=
    fun c other => Function.update_of_ne other ..
  apply Stage.finished
  · intro c
    by_cases same : c = boot
    · subst same
      rwa [self]
    · rw [point c same]
      rcases known c same with off | comes
      · rw [off.point]
        rfl
      · exact comes.boots.1
  · intro c other
    rw [point c other]
    rcases known c other with off | comes
    · exact ⟨off.entered, fun on => absurd off.point on⟩
    · exact ⟨(comes.entered (by decide)).1, fun _ => (comes.entered (by decide)).2⟩

theorem Sound.bootMoves (sound : s.Sound cpus boot)
    (moves : Moves cpus boot s.state.shared (s.state.point boot) mark sh p) : (s.moved boot sh p).Stage cpus boot := by
  have point : (s.moved boot sh p).state.point boot = p := Function.update_self ..
  have right : p.wrong = false := by
    simpa only [Function.update_self] using ((moves.disciplined sound.disciplined).fits boot).right
  cases sound.stage with
  | before here untold off =>
    rcases moves_precedes moves here right with precedes | arrived
    · exact .before (by rwa [point]) untold fun c other => (off c other).moved moves
    · subst arrived
      refine .next cpus point (List.suffix_refl _) (fun c other _ => (off c other).moved moves)
        (fun c other listed out => absurd listed out) fun told => ?_
      rw [show s.told = true from told] at untold
      cases untold
  | next rest here suffix off begun told =>
    have moves' := moves
    rw [here] at moves'
    cases moves' with
    | bootSelf tail =>
      refine .next tail point ((List.suffix_cons ..).trans suffix) ?_ ?_ ?_
      · intro c other idle
        exact (off c other (idle.imp_left (List.mem_cons_of_mem _))).moved moves
      · intro c other listed out
        exact (begun c other listed (by simp [other, out])).other moves other
      · intro tells
        obtain ⟨started, others, shape, different, -⟩ := told tells
        cases shape
        exact absurd rfl different
    | bootDone => exact .leaves off begun moves rfl
    | panic _ panics => exact .leaves off begun moves rfl
  | waits started rest n here suffix untold other off begun comes =>
    have moves' := moves
    rw [here] at moves'
    cases moves' with
    | bootStarted _ _ status =>
      have done := comes.started status
      subst done
      refine .next rest point ((List.suffix_cons ..).trans suffix) (fun c other idle => (off c other idle).moved moves)
        ?_ fun told => ?_
      · intro c different listed out
        by_cases same : c = started
        · exact same ▸ comes.other moves other
        · exact (begun c different listed (by simp [same, out])).other moves different
      · rw [show s.told = true from told] at untold
        cases untold
    | panic _ panics => cases panics
  | finished ended own =>
    apply Stage.finished
    · intro c
      by_cases same : c = boot
      · subst same
        rw [point]
        cases boots : p.boots with
        | false => rfl
        | true => exact (moves_boots moves boots).symm.trans (ended c)
      · exact (congrArg Point.boots (Function.update_of_ne same ..)).trans (ended c)
    · intro c other
      rw [show (s.moved boot sh p).state.point c = s.state.point c from Function.update_of_ne other ..]
      exact own c other

theorem Sound.otherMoves (sound : s.Sound cpus boot) (other : c ≠ boot)
    (moves : Moves cpus c s.state.shared (s.state.point c) mark sh p) (entered : s.entering c = false) :
    (s.moved c sh p).Stage cpus boot := by
  have point : ∀ d, d ≠ c → (s.moved c sh p).state.point d = s.state.point d :=
    fun d different => Function.update_of_ne different ..
  cases sound.stage with
  | before here untold off => exact absurd rfl ((off c other).ne moves)
  | next rest here suffix off begun told =>
    obtain ⟨locked, cpu⟩ := sound.locked (by rw [here]; rfl) other
    refine .next rest ((point boot (Ne.symm other)).trans here) suffix (fun d different idle =>
      (off d different idle).moved moves) (fun d different listed out => ?_) told
    have after := (begun d different listed out).moved moves entered locked cpu
    rwa [Nat.zero_sub, ite_self] at after
  | waits started rest n here suffix untold different off begun comes =>
    obtain ⟨locked, cpu⟩ := sound.locked (by rw [here]; rfl) other
    refine .waits started rest _ ((point boot (Ne.symm other)).trans here) suffix untold different
      (fun d apart idle => (off d apart idle).moved moves) (fun d apart listed out => ?_)
      (comes.moved moves entered locked cpu)
    have after := (begun d apart listed out).moved moves entered locked cpu
    rwa [Nat.zero_sub, ite_self] at after
  | finished ended own =>
    apply Stage.finished
    · intro d
      by_cases same : d = c
      · subst same
        rw [show (s.moved d sh p).state.point d = p from Function.update_self ..]
        cases boots : p.boots with
        | false => rfl
        | true => exact (moves_boots moves boots).symm.trans (ended d)
      · rw [point d same]
        exact ended d
    · intro d apart
      refine ⟨(own d apart).1, fun on => (own d apart).2 fun off => on ?_⟩
      by_cases same : d = c
      · subst same
        exact absurd off (moves_on moves).1
      · exact (point d same).trans off

end Boot

theorem Sound.startAp (distinct : cpus.Nodup) (sound : s.Sound cpus boot) {started : C} {rest : List C}
    (here : s.state.point c = .bootAps (started :: rest)) (other : started ≠ c)
    (off' : s.state.point started = .off) (told' : s.told = true) : Sound cpus boot { s with
      state := ⟨s.state.shared,
        Function.update (Function.update s.state.point started .mpMain) c (.bootWait started rest)⟩
      told := false
      entering := Function.update s.entering started true } := by
  have same : c = boot := sound.stage.booter (by rw [here]; rfl)
  subst same
  refine ⟨(@Locking.Step.startAp _ _ cpus s.state c started rest here other off').disciplined sound.disciplined,
    (Function.update_of_ne (Ne.symm other) ..).trans sound.entered, ?_⟩
  cases sound.stage with
  | before precedes =>
    rw [here] at precedes
    cases precedes
  | next _ at' suffix off begun told =>
    rw [here] at at'
    cases at'
    obtain ⟨_, _, shape, -, stack⟩ := told told'
    cases shape
    have fresh : started ∉ rest := (List.nodup_cons.mp (distinct.sublist suffix.sublist)).1
    have listed : started ∈ cpus := suffix.subset (by simp)
    have point : ∀ d, d ≠ c → d ≠ started →
        Function.update (Function.update s.state.point started Point.mpMain) c (.bootWait started rest) d =
          s.state.point d := by
      intro d apart different
      rw [Function.update_of_ne apart, Function.update_of_ne different]
    refine .waits started rest 3 (Function.update_self ..) suffix rfl other (fun d apart idle => ?_)
      (fun d apart known out => ?_) ?_
    · have different : d ≠ started := by
        intro same
        subst same
        exact idle.elim fresh fun unlisted => unlisted listed
      have before := off d apart (idle.imp_left (List.mem_cons_of_mem _))
      exact ⟨(point d apart different).trans before.point, before.status,
        (Function.update_of_ne different ..).trans before.entered⟩
    · have different : d ≠ started := fun same => out (by simp [same])
      exact (begun d apart known out).elsewhere (point d apart different) rfl (Function.update_of_ne different ..) rfl
    · refine .entering ?_ (off started other (.inl (by simp))).status (Function.update_self ..) stack
      exact (Function.update_of_ne other ..).trans (Function.update_self ..)
  | waits _ _ _ at' =>
    rw [here] at at'
    cases at'
  | finished ended =>
    have closed := ended c
    rw [here] at closed
    cases closed

def loaded (s : Startup C) (c : C) : Startup C :=
  { s with
    entering := Function.update s.entering c false
    rsp := Function.update s.rsp c s.mpentryKstack }

theorem Comes.loaded (comes : s.Comes d n) (entering : s.entering c = true) :
    (s.loaded c).Comes d (if c = d then n - 1 else n) := by
  split
  · rename_i same
    subst same
    have three := comes.entering_iff.mp entering
    subst three
    cases comes with
    | entering point status _ stack =>
      exact .mpMain point status (Function.update_self ..) ((Function.update_self ..).trans stack)
  · rename_i different
    have entered : (s.loaded c).entering d = s.entering d := Function.update_of_ne (Ne.symm different) ..
    have rsp : (s.loaded c).rsp d = s.rsp d := Function.update_of_ne (Ne.symm different) ..
    cases comes with
    | entering point status enters stack => exact .entering point status (entered.trans enters) stack
    | mpMain point status calm own => exact .mpMain point status (entered.trans calm) (rsp.trans own)
    | mpStatus point status calm own => exact .mpStatus point status (entered.trans calm) (rsp.trans own)
    | queues point status calm own => exact .queues point status (entered.trans calm) (rsp.trans own)

theorem Off.loaded (off : s.Off d) (entering : s.entering c = true) : (s.loaded c).Off d := by
  have different : d ≠ c := by
    intro same
    subst same
    rw [off.entered] at entering
    cases entering
  exact ⟨off.point, off.status, (Function.update_of_ne different ..).trans off.entered⟩

theorem Sound.load (sound : s.Sound cpus boot) (entering : s.entering c = true) : (s.loaded c).Sound cpus boot := by
  have other : c ≠ boot := by
    intro same
    subst same
    rw [sound.entered] at entering
    cases entering
  refine ⟨sound.disciplined, (Function.update_of_ne (Ne.symm other) ..).trans sound.entered, ?_⟩
  cases sound.stage with
  | before here untold off => exact .before here untold fun d apart => (off d apart).loaded entering
  | next rest here suffix off begun told =>
    refine .next rest here suffix (fun d apart idle => (off d apart idle).loaded entering)
      (fun d apart listed out => ?_) told
    have after := (begun d apart listed out).loaded entering
    rwa [Nat.zero_sub, ite_self] at after
  | waits started rest n here suffix untold different off begun comes =>
    refine .waits started rest _ here suffix untold different (fun d apart idle => (off d apart idle).loaded entering)
      (fun d apart listed out => ?_) (comes.loaded entering)
    have after := (begun d apart listed out).loaded entering
    rwa [Nat.zero_sub, ite_self] at after
  | finished ended own =>
    rw [(own c other).1] at entering
    cases entering

theorem Step.sound (distinct : cpus.Nodup) (sound : s.Sound cpus boot) (step : Step cpus s label s') :
    s'.Sound cpus boot := by
  cases step with
  | move c mark sh p moves entered =>
    refine ⟨moves.disciplined sound.disciplined, sound.entered, ?_⟩
    by_cases same : c = boot
    · subst same
      exact sound.bootMoves moves
    · exact sound.otherMoves same moves entered
  | tell c started rest here other untold => exact sound.tell here other
  | startAp c started rest here other off told => exact sound.startAp distinct here other off told
  | load c entering => exact sound.load entering

theorem initial_sound (cpus : List C) (boot : C) : (initial boot).Sound cpus boot := by
  refine ⟨booting_disciplined boot, rfl, .before ?_ rfl fun c other => ⟨?_, ?_, rfl⟩⟩
  · rw [show (initial boot).state.point boot = .i386Init from (booting_point boot boot).trans (if_pos rfl)]
    rfl
  · exact (booting_point boot c).trans (if_neg other)
  · exact (Function.update_apply (fun _ => CpuStatus.unused) boot .started c).trans (if_neg other)

-- The wait for a CPU

/-- While the boot CPU waits for a CPU, only the steps of that CPU bring it closer to its start. -/
theorem Step.comes (sound : s.Sound cpus boot) {started : C} {rest : List C}
    (here : s.state.point boot = .bootWait started rest) (comes : s.Comes started n) (step : Step cpus s label s')
    (quiet : label.1 ≠ boot) : s'.state.point boot = .bootWait started rest ∧
      s'.Comes started (if label.1 = started then n - 1 else n) := by
  cases step with
  | move c mark sh p moves entered =>
    obtain ⟨locked, cpu⟩ := sound.locked (by rw [here]; rfl) quiet
    exact ⟨(Function.update_of_ne (Ne.symm quiet) ..).trans here, comes.moved moves entered locked cpu⟩
  | tell c _ _ at' | startAp c _ _ at' => exact absurd (sound.stage.booter (by rw [at']; rfl)) quiet
  | load c entering => exact ⟨here, comes.loaded entering⟩

theorem run_comes (distinct : cpus.Nodup) (sound : s.Sound cpus boot) {started : C} {rest : List C}
    (here : s.state.point boot = .bootWait started rest) (comes : s.Comes started n) {labels : List (C × Option Mark)}
    (run : Transition.Run (Step cpus) s labels s') (quiet : ∀ label ∈ labels, label.1 ≠ boot) :
    s'.Comes started (n - labels.countP fun label => label.1 = started) := by
  induction run generalizing n with
  | nil => exact comes
  | cons first _ ih =>
    obtain ⟨here', comes'⟩ := first.comes sound here comes (quiet _ (by simp))
    have later := ih (first.sound distinct sound) here' comes' fun label member => quiet label (by simp [member])
    rw [List.countP_cons]
    split at later
    · rename_i same
      rw [if_pos (by simpa using same)]
      rwa [Nat.sub_sub, Nat.add_comm] at later
    · rename_i different
      rw [if_neg (by simpa using different)]
      exact later

/-- Every CPU that `boot_aps` starts comes to run on its own stack. When it is the turn of a CPU, those before it have
    started and those behind it are off, and the wait for it ends when it has made three steps, whatever the others do. -/
theorem boot_aps_starts {labels : List (C × Option Mark)} (distinct : cpus.Nodup)
    (run : Transition.Run (Step cpus) (initial boot) labels s) :
    (∀ c, c ≠ boot → s.state.point c ≠ .off → s.entering c = false → s.rsp c = some c) ∧
    (∀ rest, s.state.point boot = .bootAps rest → ∀ c ∈ cpus, c ≠ boot →
      if c ∈ rest then s.state.point c = .off else s.state.shared.cpuStatus c = .started) ∧
    ∀ started rest, s.state.point boot = .bootWait started rest → ∀ later s', Transition.Run (Step cpus) s later s' →
      (∀ label ∈ later, label.1 ≠ boot) → 3 ≤ (later.countP fun label => label.1 = started) →
      s'.state.shared.cpuStatus started = .started := by
  have sound : s.Sound cpus boot :=
    run.invariant (fun _ _ _ sound step => step.sound distinct sound) (initial_sound cpus boot)
  refine ⟨fun c other on entered => sound.stage.own other on entered, ?_, ?_⟩
  · intro rest here c listed other
    cases sound.stage with
    | before precedes =>
      rw [here] at precedes
      cases precedes
    | next _ at' suffix off begun told =>
      rw [here] at at'
      cases at'
      split
      · rename_i member
        exact (off c other (.inl member)).point
      · rename_i out
        cases begun c other listed out with
        | queues _ status => exact status
    | waits _ _ _ at' =>
      rw [here] at at'
      cases at'
    | finished ended =>
      have closed := ended boot
      rw [here] at closed
      cases closed
  · intro started rest here later s' run' quiet enough
    have apart : started ≠ boot ∧ ∃ n, s.Comes started n := by
      cases sound.stage with
      | before precedes =>
        rw [here] at precedes
        cases precedes
      | next _ at' =>
        rw [here] at at'
        cases at'
      | waits _ _ n at' _ _ other _ _ comes =>
        rw [here] at at'
        cases at'
        exact ⟨other, n, comes⟩
      | finished ended =>
        have closed := ended boot
        rw [here] at closed
        cases closed
    obtain ⟨-, n, comes⟩ := apart
    have close := comes.le
    have arrived := run_comes distinct sound here comes run' quiet
    rw [Nat.sub_eq_zero_of_le (by omega)] at arrived
    cases arrived with
    | queues _ status => exact status

theorem boot_aps_starts_second : ∃ labels s later s', Transition.Run (Step [false, true]) (initial false) labels s ∧
    s.state.point false = .bootWait true [] ∧ Transition.Run (Step [false, true]) s later s' ∧
    s'.state.shared.cpuStatus true = .started := by
  refine ⟨_, _, [(true, none), (true, some .enter), (true, none)], _,
    .cons (.move false _ _ _ .init rfl) <| .cons (.move false _ _ _ (.lockFree _ rfl) rfl) <|
    .cons (.move false _ _ _ (.acquire _ rfl) rfl) <| .cons (.move false _ _ _ (.record _) rfl) <|
    .cons (.move false _ _ _ (.bootSelf _) rfl) <| .cons (.tell false true [] rfl Bool.noConfusion rfl) <|
    .cons (.startAp false true [] rfl Bool.noConfusion rfl rfl) (.nil _), rfl,
    .cons (.load true rfl) <| .cons (.move true _ _ _ .mpMain rfl) <|
    .cons (.move true _ _ _ .mpStatus rfl) (.nil _), ?_⟩
  exact (boot_aps_starts (by decide) (.cons (.move false _ _ _ .init rfl) <|
    .cons (.move false _ _ _ (.lockFree _ rfl) rfl) <|
    .cons (.move false _ _ _ (.acquire _ rfl) rfl) <| .cons (.move false _ _ _ (.record _) rfl) <|
    .cons (.move false _ _ _ (.bootSelf _) rfl) <| .cons (.tell false true [] rfl Bool.noConfusion rfl) <|
    .cons (.startAp false true [] rfl Bool.noConfusion rfl rfl) (.nil _))).2.2 true [] rfl _ _
    (.cons (.load true rfl) <| .cons (.move true _ _ _ .mpMain rfl) <| .cons (.move true _ _ _ .mpStatus rfl) (.nil _))
    (by decide) (by decide)

end Startup

end Locking

end Jos
