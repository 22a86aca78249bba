import SagaMachine.Proofs.RoundTrips

/-!
# A session balances

A setting of the clock fires at least one timer, and each timer that fires leaves less work: a round
starts two timers, and none of them is fired twice. So the session runs on until the pinger is done,
and after the end of the bus until the watcher is done; and then nobody sleeps any more, so every PING
has had its PONG.
-/

namespace SagaMachine

/-- What a fold finds in one place it does not lose again. -/
theorem isSome_foldl {α β : Type} {f : Option β → α → Option β} {a : α} {as : List α} (ha : a ∈ as)
    (hf : ∀ best, (f best a).isSome = true)
    (keeps : ∀ best a, best.isSome = true → (f best a).isSome = true) (best : Option β) :
    (as.foldl f best).isSome = true := by
  have hstays (as : List α) (best : Option β) (h : best.isSome = true) :
      (as.foldl f best).isSome = true := by
    induction as generalizing best with
    | nil => exact h
    | cons a as ih => exact ih _ (keeps best a h)
  induction as generalizing best with
  | nil => cases ha
  | cons a' as ih =>
    rcases List.mem_cons.1 ha with rfl | ha
    · exact hstays as _ (hf best)
    · exact ih ha _

theorem World.exists_dueTimer? {w : World} {limit : Nat} {tm : Timer} (hm : tm ∈ w.timers)
    (hd : tm.deadline ≤ limit) : ∃ u, w.dueTimer? limit = some u := by
  refine Option.isSome_iff_exists.1 (isSome_foldl hm (fun best => ?_) (fun best t h => ?_) none)
  · rw [if_neg (Nat.not_lt.2 hd)]
    cases best with
    | none => rfl
    | some b =>
      dsimp only
      split <;> rfl
  · split
    · exact h
    · cases best with
      | none => rfl
      | some b =>
        dsimp only
        split <;> rfl

namespace Session

variable {p : Session} {g g' : Stage} {P : Nat → Stage → Prop} {work target : Nat} {tm : Timer}
  {a : Nat} {crew : List TaskId} {own : List BusTaker}

theorem exists_due {w : World} {deadline : Nat} (h : nextDeadline? w = some deadline)
    (hle : deadline ≤ target) : ∃ tm, w.dueTimer? target = some tm := by
  obtain ⟨tm, hm, rfl⟩ := List.mem_map.1 (List.min?_mem h)
  exact World.exists_dueTimer? hm hle

/-! ## Operations -/

theorem run_stopped (k : Nat) (w : World) : Config.run k ⟨[], w⟩ = ⟨[], w⟩ := by
  cases k <;> rfl

/-- An operation whose instructions are carried out in few enough steps is run to its end. -/
theorem perform_of_plays {k : Nat} {o : Op} (journal : List Entry)
    (h : Plays p k { g with reply := none } [.op .outside .empty o] g' []) (hk : k ≤ stepLimit) :
    ∃ journal', (g.world p journal).perform o = some (g'.world p journal') := by
  obtain ⟨journal', hrun⟩ := h.run journal []
  refine ⟨journal', ?_⟩
  have hstart : ({ g.world p journal with reply := none } : World) =
      Stage.world p { g with reply := none } journal := rfl
  obtain ⟨l, hl⟩ := Nat.exists_eq_add_of_le hk
  rw [List.append_nil, List.append_nil] at hrun
  simp only [World.perform, hstart, hl, run_add, hrun, run_stopped]
  rfl

/-! ## The clock -/

/-- What the clock fires ends after so much work, each timer taking some of it. -/
structure Ticks (p : Session) (P : Nat → Stage → Prop) : Prop where
  timers : ∀ {work g}, P work g → g.timers.length ≤ work
  around : ∀ {work g} (driving : Bool) (now : Nat) (labels : Table String TaskRef)
    (reply : Option Reply) (budget : Nat), P work g →
    P work (g.around driving now labels reply budget)
  fires : ∀ {work g target tm}, P work g → (g.world p []).dueTimer? target = some tm →
    g.engine.driving = false → 7 * work ≤ g.budget →
    ∃ k work' g', work' < work ∧ k + 67 * work' ≤ 67 * work ∧ P work' g' ∧
      g.budget + 7 * work' ≤ g'.budget + 7 * work ∧
      Plays p k g [.moveClock target] g' [.moveClock target] ∧ g'.labels = g.labels ∧
      g'.engine.driving = false

namespace Ticks

/-- The clock fires what is due, and arrives. -/
theorem clock (h : Ticks p P) (target : Nat) (hg : P work g) (hdriving : g.engine.driving = false)
    (hb : 7 * work ≤ g.budget) :
    ∃ k work' g', work' ≤ work ∧ k + 67 * work' ≤ 67 * work + 1 ∧ P work' g' ∧
      g.budget + 7 * work' ≤ g'.budget + 7 * work ∧ Plays p k g [.moveClock target] g' [] ∧
      g'.labels = g.labels ∧ g'.engine.driving = false ∧
      ((∃ tm, (g.world p []).dueTimer? target = some tm) → work' < work) := by
  induction work using Nat.strongRecOn generalizing g with
  | ind work ih =>
    cases hdue : (g.world p []).dueTimer? target with
    | none =>
      refine ⟨1, work, g.around g.engine.driving target g.labels g.reply g.budget, Nat.le_refl _,
        by omega, h.around _ _ _ _ _ hg, Nat.le_refl _, plays_arrive hdue, rfl, hdriving, ?_⟩
      rintro ⟨tm, htm⟩
      cases htm
    | some tm =>
      obtain ⟨k, work₁, g₁, hless, hk, hg₁, hb₁, hplays, hlabels, hdriving₁⟩ :=
        h.fires hg hdue hdriving hb
      obtain ⟨l, work₂, g₂, hle, hl, hg₂, hb₂, hplays', hlabels', hdriving₂, -⟩ :=
        ih work₁ hless hg₁ hdriving₁ (by omega)
      exact ⟨k + l, work₂, g₂, by omega, by omega, hg₂, by omega, hplays.trans hplays',
        hlabels'.trans hlabels, hdriving₂, fun _ => by omega⟩

/-- A setting of the clock to the next timer. -/
theorem advance (h : Ticks p P) (hg : P work g) (hdriving : g.engine.driving = false)
    (hwork : work ≤ 2 * maxRounds) (c : Nat) (hb : 8 * work + c ≤ g.budget) (journal : List Entry)
    {deadline : Nat} (hd : nextDeadline? (g.world p journal) = some deadline) :
    ∃ work' < work, ∃ g' journal', P work' g' ∧ 8 * work' + c ≤ g'.budget ∧ g'.labels = g.labels ∧
      g'.engine.driving = false ∧
      (g.world p journal).perform (.advance (deadline - g.now)) = some (g'.world p journal') := by
  have hpos : 0 < work := by
    obtain ⟨tm, hm, -⟩ := List.mem_map.1 (List.min?_mem hd)
    have := h.timers hg
    have : 0 < g.timers.length := List.length_pos_of_mem hm
    omega
  let target := g.now + (deadline - g.now)
  let g₀ := g.around g.engine.driving g.now g.labels none g.budget
  let g₁ := g.around g.engine.driving g.now g.labels none (g.budget - 1)
  have hop : Plays p 1 g₀ [.op .outside .empty (.advance (deadline - g.now))] g₁
      [.moveClock target, .reply .outside "advance" .ok] := by
    refine .of_exec fun j => ?_
    simp only [Instr.exec, World.execOp, Stage.world_spend (show 0 < g₀.budget by
      show 0 < g.budget
      omega), Option.map_some]
    exact ⟨_, rfl⟩
  obtain ⟨k, work', g₂, -, hk, hg₂, hb₂, hclock, hlabels, hdriving₂, hless⟩ :=
    h.clock target (h.around g.engine.driving g.now g.labels none (g.budget - 1) hg) hdriving (show 7 * work ≤ g.budget - 1 by omega)
  let g₃ := g₂.around g₂.engine.driving g₂.now g₂.labels (some .ok) g₂.budget
  have hreply : Plays p 1 g₂ [.reply .outside "advance" .ok] g₃ [] := ⟨fun _ _ => ⟨_, rfl⟩⟩
  have hdue : ∃ tm, (g₁.world p []).dueTimer? target = some tm :=
    exists_due (show nextDeadline? (g₁.world p []) = some deadline from hd) (by omega)
  have hlt := hless hdue
  have hb₂ : g.budget - 1 + 7 * work' ≤ g₂.budget + 7 * work := hb₂
  have hmax : maxRounds = 65535 := rfl
  have hlimit : stepLimit = 10000000 := rfl
  obtain ⟨journal', hperform⟩ := perform_of_plays (g := g) journal
    ((hop.trans (hclock.below _)).trans hreply) (by omega)
  refine ⟨work', hlt, g₃, journal', h.around _ _ _ _ _ hg₂, ?_, hlabels, hdriving₂, hperform⟩
  show 8 * work' + c ≤ g₂.budget
  omega

/-- The clock is set until a task is done, or no timer is left. -/
theorem untilDone (h : Ticks p P) (label : String) (c fuel : Nat) (hg : P work g)
    (hdriving : g.engine.driving = false) (hfuel : work ≤ fuel) (hwork : work ≤ 2 * maxRounds)
    (hb : 8 * work + c ≤ g.budget) (journal : List Entry) :
    ∃ work' ≤ work, ∃ g' journal',
      runUntilDone label fuel (g.world p journal) = some (g'.world p journal') ∧ P work' g' ∧
      8 * work' + c ≤ g'.budget ∧ g'.labels = g.labels ∧ g'.engine.driving = false ∧
      ((statusOf (g'.world p journal') label).isTerminal = true ∨ g'.timers = []) := by
  induction fuel generalizing work g journal with
  | zero =>
    refine ⟨work, Nat.le_refl _, g, journal, rfl, hg, hb, rfl, hdriving, Or.inr ?_⟩
    have := h.timers hg
    exact List.eq_nil_of_length_eq_zero (by omega)
  | succ fuel ih =>
    rw [runUntilDone]
    by_cases hdone : (statusOf (g.world p journal) label).isTerminal = true
    · rw [if_pos hdone]
      exact ⟨work, Nat.le_refl _, g, journal, rfl, hg, hb, rfl, hdriving, Or.inl hdone⟩
    · rw [if_neg hdone]
      cases hd : nextDeadline? (g.world p journal) with
      | none =>
        refine ⟨work, Nat.le_refl _, g, journal, rfl, hg, hb, rfl, hdriving, Or.inr ?_⟩
        exact List.map_eq_nil_iff.1 (List.min?_eq_none_iff.1 hd)
      | some deadline =>
        obtain ⟨work₁, hless, g₁, journal₁, hg₁, hb₁, hlabels, hdriving₁, hperform⟩ :=
          h.advance hg hdriving hwork c hb journal hd
        obtain ⟨work₂, hle, g₂, journal₂, hrun, hg₂, hb₂, hlabels₂, hdriving₂, hend⟩ :=
          ih hg₁ hdriving₁ (by omega) (by omega) hb₁ journal₁
        refine ⟨work₂, by omega, g₂, journal₂, ?_, hg₂, hb₂, hlabels₂.trans hlabels, hdriving₂, hend⟩
        show ((g.world p journal).perform (.advance (deadline - g.now))).bind _ = _
        rw [hperform]
        exact hrun

end Ticks

/-- The clock fires the timers of workers, and of races. -/
theorem ticks_standing (hp : p.rounds ≤ maxRounds) : Ticks p fun work g => g.Standing p work where
  timers h := by
    cases h with
    | racing h => omega
    | ended h => exact Nat.le_refl _
  around driving now labels reply budget h := h.around driving now labels reply budget
  fires {work g target tm} h hdue hdriving hb := by
    cases h with
    | @racing left a crew r w k h =>
      have hpos : 0 < g.timers.length := by
        obtain ⟨tm, hm, -⟩ := h.timer
        exact List.length_pos_of_mem hm
      obtain ⟨-, -, -, hid | ⟨t, ht, e, hnap⟩⟩ := h.company.due_cases hdue
      · obtain ⟨g₁, env, hplays, henv, hturning, htimers, hbudget, hlabels⟩ :=
          h.timeout hp hdue hdriving (by omega) (List.mem_singleton.1 hid)
        obtain ⟨l, hl, g₂, hturn, hstanding, hbudget₂, hlabels₂, hdriving₂⟩ :=
          hturning.turn hp (by omega) henv
        rw [List.length_nil] at hl
        exact ⟨20 + l, _, g₂, by omega, by omega, hstanding, by omega,
          hplays.trans (hturn.below [.moveClock target]), hlabels₂.trans hlabels, hdriving₂⟩
      · obtain ⟨g₁, stack, env, hplays, hstack, henv, hturning, htimers, hbudget, hlabels⟩ :=
          h.answer hp hdue hdriving (by omega) ht hnap
        obtain ⟨l, hl, g₂, hturn, hstanding, hbudget₂, hlabels₂, hdriving₂⟩ :=
          hturning.turn hp (by omega) henv
        rw [hstack] at hl
        exact ⟨21 + l, _, g₂, by omega, by omega, hstanding, by omega,
          hplays.trans (hturn.below [.moveClock target]), hlabels₂.trans hlabels, hdriving₂⟩
    | ended h =>
      have hpos : 0 < g.timers.length := List.length_pos_of_mem (World.mem_of_dueTimer? hdue)
      obtain ⟨k, hk, g', crew', hplays, hover, -, htimers, hbudget, hlabels, hdriving'⟩ :=
        h.tick hp hdue hdriving (by omega)
      exact ⟨k, _, g', htimers, by omega, .ended hover, by omega, hplays, hlabels, hdriving'⟩

/-- The session after the end of the bus. -/
def Closing (p : Session) (a : Nat) (work : Nat) (g : Stage) : Prop :=
  ∃ crew, g.Over p a crew [] ∧ g.timers.length = work

/-- After the end of the bus, the clock fires the timers of workers. -/
theorem ticks_closing (hp : p.rounds ≤ maxRounds) : Ticks p (Closing p a) where
  timers := fun ⟨_, _, h⟩ => Nat.le_of_eq h
  around driving now labels reply budget := fun ⟨crew, h, hwork⟩ =>
    ⟨crew, h.around driving now labels reply budget, hwork⟩
  fires {work g target tm} := by
    rintro ⟨crew, h, hwork⟩ hdue hdriving hb
    have hpos : 0 < g.timers.length := List.length_pos_of_mem (World.mem_of_dueTimer? hdue)
    obtain ⟨k, hk, g', crew', hplays, hover, -, htimers, hbudget, hlabels, hdriving'⟩ :=
      h.tick hp hdue hdriving (by omega)
    exact ⟨k, _, g', hwork ▸ htimers, by omega, ⟨crew', hover, rfl⟩, by omega, hplays, hlabels,
      hdriving'⟩

/-! ## The beginning -/

/-- The stage of a session before its first step. -/
def start (p : Session) : Stage :=
  { engine := {}, pings := 0, pongs := 0, timeouts := 0, deferreds := .empty, timers := []
    nextTimer := 0, now := 0, labels := .empty, reply := none, budget := 20 * p.rounds + 20 }

/-- A root task is created, and the driver is entered. -/
@[simp] def Stage.run (g : Stage) (saga : Saga) : Stage :=
  g.spend.setEngine fun e =>
    { e with
      nextTask := e.nextTask + 1, driving := true, agenda := e.agenda.schedule (.start e.nextTask)
      tasks := e.tasks.insert e.nextTask
        { name := saga.name, parent := none, detached := false
          body := some (saga.program.start e.nextTask) } }

theorem plays_run {x : SagaExpr} {saga : Saga} {label : Option String} (hb : 0 < g.budget)
    (hx : ∀ j, (g.spend.world p j).evalSaga .empty x = saga) (hd : g.engine.driving = false) :
    Plays p 1 g [.op .outside .empty (.run 0 x label)] (g.run saga)
      [.drain 0, .started .outside label ⟨0, g.engine.nextTask, saga.name⟩] := by
  refine .of_exec fun j => ?_
  have hdriving : g.spend.engine.driving = false := hd
  have hop : Instr.exec (g.world p j) (.op .outside .empty (.run 0 x label)) =
      some ((g.spend.world p j).opRun .outside .empty 0 x label) := by
    simp only [Instr.exec, World.execOp, Stage.world_spend hb, Option.map_some]
    rfl
  rw [hop]
  simp only [World.opRun, hx, World.enterDriver, World.createTask, Stage.world_engine,
    Stage.world_setEngine, Stage.world_schedule, Stage.world_record, Stage.setEngine, hdriving,
    Bool.false_eq_true, if_false]
  exact ⟨_, rfl⟩

/-- A started task is registered under a label. -/
theorem plays_started (g : Stage) (label : String) (t : TaskRef) : ∃ reply,
    Plays p 2 g [.started .outside (some label) t]
      (g.around g.engine.driving g.now (g.labels.insert label t) reply g.budget) [] :=
  ⟨some (.started t.id ((g.world p []).statusOf t)), ⟨fun _ _ => ⟨_, rfl⟩⟩⟩

/-- The stage at which the watcher listens, and nothing else was started. -/
def opened (p : Session) (driving : Bool) (labels : Table String TaskRef) : Stage :=
  { engine :=
      { tasks := Table.empty.insert 1 (watcherNode p [] .taking (some 1))
        waits := Table.empty.insert 1 ⟨1, .task, .take .bus 1⟩
        bus := { takers := [⟨1, 1, .type "PING", 1⟩], nextTaker := 2 }
        nextTask := 2, nextEffect := 2, driving }
    pings := 0, pongs := 0, timeouts := 0, deferreds := .empty, timers := []
    nextTimer := 0, now := 0, labels, reply := none, budget := 20 * p.rounds + 19 }

theorem plays_opened : Plays p 9 (start p) [.op .outside .empty (.run 0 ponger (some "watcher"))]
    (opened p false .empty) [.started .outside (some "watcher") ⟨0, 1, "take_every"⟩] := by
  let g₁ := (start p).run { name := "take_every", program := .watcher (plan p) }
  have hrun : Plays p 1 (start p) [.op .outside .empty (.run 0 ponger (some "watcher"))] g₁
      [.drain 0, .started .outside (some "watcher") ⟨0, 1, "take_every"⟩] :=
    plays_run (Nat.succ_pos _) (fun j => rfl) rfl
  let g₂ := (g₁.fetch {}).beginTurn 1
  have hfetch : Plays p 1 g₁ [.drain 0] (g₁.fetch {}) [.perform 0 (.reaction (.start 1)), .drain 0] :=
    plays_fetch rfl
  have hstart : Plays p 1 (g₁.fetch {}) [.perform 0 (.reaction (.start 1))] g₂
      [.poll ⟨0, 1⟩ (.watcher { plan := plan p }) none] := plays_start rfl rfl rfl rfl
  have hpoll : Plays p 1 g₂ [.poll ⟨0, 1⟩ (.watcher { plan := plan p }) none] g₂
      [.polled ⟨0, 1⟩ (.watcher { plan := plan p, phase := .taking })
        (.yielded (.take .bus (.type "PING")))] := plays_poll_watcher
  let body : Body := .watcher { plan := plan p, phase := .taking }
  have hyield : Plays p 1 g₂ [.polled ⟨0, 1⟩ body (.yielded (.take .bus (.type "PING")))] g₂
      [.trigger ⟨0, 1⟩ body [] (.take .bus (.type "PING"))] := plays_yield _ _ rfl
  let g₃ := g₂.take 1 .task (.type "PING")
  have htrigger : Plays p 1 g₂ [.trigger ⟨0, 1⟩ body [] (.take .bus (.type "PING"))] g₃
      [.begun ⟨0, 1⟩ body [] (.pending 1)] := plays_trigger_take rfl rfl
  have hbegun : Plays p 2 g₃ [.begun ⟨0, 1⟩ body [] (.pending 1)] (g₃.rest 1 body (some 1)) [] :=
    plays_begun_pending rfl
  have hidle : Plays p 1 (opened p true .empty) [.drain 0] (opened p false .empty) [] := plays_idle rfl
  have hpark : Plays p 5 g₂ [.poll ⟨0, 1⟩ (.watcher { plan := plan p }) none] (opened p true .empty) [] :=
    ((hpoll.trans hyield).trans htrigger).trans hbegun
  have hjob : Plays p 7 g₁ [.drain 0] (opened p true .empty) [.drain 0] :=
    (hfetch.trans (hstart.below _)).trans (hpark.below _)
  have hrest := (hjob.trans hidle).below [.started .outside (some "watcher") ⟨0, 1, "take_every"⟩]
  have hall := hrun.trans hrest
  exact hall

/-- The pinger comes to its first round. -/
theorem plays_first (labels : Table String TaskRef) : ∃ (g : Stage) (env : Env),
    Plays p 6 (opened p false labels)
      [.op .outside .empty (.run 0 { source := .named "pinger" } (some "pinger"))] g
      [.advance ⟨0, 2⟩ { control := loopControl p p.rounds, env } {}, .drain 0,
        .started .outside (some "pinger") ⟨0, 2, "pinger"⟩] ∧
    env.get? "answered" = some (.ofInt (0 : Nat)) ∧ g.Turning p p.rounds 0 [] [] [] 1 1 ∧
    g.timers = [] ∧ g.budget = 20 * p.rounds + 16 ∧ g.labels = labels := by
  let env : Env := Table.insert (.ofList []) "self" (.ofInt 2)
  let g₁ := (opened p false labels).run
    { name := "pinger", program := .script (pinger p.rounds p.timeout) (.ofList []) }
  have hrun : Plays p 1 (opened p false labels)
      [.op .outside .empty (.run 0 { source := .named "pinger" } (some "pinger"))] g₁
      [.drain 0, .started .outside (some "pinger") ⟨0, 2, "pinger"⟩] := by
    refine plays_run (Nat.succ_pos _) (fun j => ?_) rfl
    rfl
  let g₂ := (g₁.fetch {}).beginTurn 2
  have hfetch : Plays p 1 g₁ [.drain 0] (g₁.fetch {}) [.perform 0 (.reaction (.start 2)), .drain 0] :=
    plays_fetch rfl
  have hstart : Plays p 1 (g₁.fetch {}) [.perform 0 (.reaction (.start 2))] g₂
      [.poll ⟨0, 2⟩ (.script { control := [.block (pinger p.rounds p.timeout)], env }) none] :=
    plays_start rfl rfl rfl rfl
  have hopen : Plays p 1 g₂
      [.poll ⟨0, 2⟩ (.script { control := [.block (pinger p.rounds p.timeout)], env }) none] g₂
      [.advance ⟨0, 2⟩ { control := [.block (pinger p.rounds p.timeout)], env } {}] := plays_open
  let env' := env.insert "answered" (.ofInt (0 : Nat))
  have hassign : Plays p 1 g₂
      [.advance ⟨0, 2⟩ { control := [.block (pinger p.rounds p.timeout)], env } {}] g₂.spend
      [.advance ⟨0, 2⟩ { control := [.block (pinger p.rounds p.timeout).tail], env := env' } {}] :=
    plays_assign _ _ _ _ (Nat.succ_pos _) fun w => rfl
  have hrepeat : Plays p 1 g₂.spend
      [.advance ⟨0, 2⟩ { control := [.block (pinger p.rounds p.timeout).tail], env := env' } {}]
      g₂.spend.spend
      [.advance ⟨0, 2⟩ { control := loopControl p p.rounds, env := env' } {}] :=
    plays_repeat (Nat.succ_pos _)
  have hjob := (hfetch.trans ((hstart.trans ((hopen.trans hassign).trans hrepeat)).below [.drain 0])).below
    [.started .outside (some "pinger") ⟨0, 2, "pinger"⟩]
  have hall := hrun.trans hjob
  let g₃ := g₂.spend.spend
  have htasks (t : TaskId) (ht : g₃.engine.tasks.contains t = true) : t = 1 ∨ t = 2 := by
    have ht' : t = 2 ∨ t = 1 := by
      simpa [g₃, g₂, g₁, opened, Table.contains_modify, Table.contains_insert, Table.contains_empty]
        using ht
    exact ht'.symm
  have hwaits (e : EffectId) (he : g₃.engine.waits.contains e = true) : e = 1 := by
    simpa [g₃, g₂, g₁, opened, Table.contains_insert, Table.contains] using he
  have hwatcher : g₃.engine.tasks.get? 1 = some (watcherNode p [] .taking (some 1)) := by
    simp [g₃, g₂, g₁, opened]
  have hpinger : g₃.engine.tasks.get? 2 = some (runningNode none) := by
    simp [g₃, g₂, g₁, opened, runningNode]
  have hcompany : g₃.Company [] [] [] := by
    refine ⟨⟨fun t ht => ?_, fun e he => ?_, fun d hd => ?_, fun tm hm => ?_⟩, ?_, fun t ht => ?_,
      fun t ht => ?_, List.nodup_nil, fun t ht => ht, fun t ht => ?_, fun tm hm => ?_⟩
    · rcases htasks t ht with rfl | rfl
      · show 1 < 3
        decide
      · show 2 < 3
        decide
    · cases hwaits e he
      show 1 < 2
      decide
    · cases hd
    · cases hm
    · show 2 < 3
      decide
    · exact (htasks t ht).imp_right Or.inl
    · cases ht
    · cases ht
    · cases hm
  have hwatched : g₃.Watched p [] [⟨1, 1, .type "PING", 1⟩] := .listens hwatcher rfl rfl
  exact ⟨g₃, env', hall, rfl, ⟨hcompany, hwatched, rfl, rfl, rfl, .nobody, ⟨none, hpinger⟩, rfl,
    Nat.zero_add _, rfl, rfl⟩, rfl, rfl, rfl⟩

/-! ## The end of the bus -/

/-- The bus has ended, and the watcher is told so. -/
@[simp] def Stage.closing (g : Stage) (w : EffectId) : Stage :=
  g.spend.setEngine fun e =>
    { e with
      driving := true, agenda := e.agenda.schedule (.settle w .ended)
      bus := { e.bus with takers := [], watermark := some e.nextTask } }

theorem plays_closing {k : TakerId} {w : EffectId} (hb : 0 < g.budget)
    (ht : g.engine.bus.takers = [⟨k, 1, .type "PING", w⟩]) (hd : g.engine.driving = false) :
    Plays p 1 g [.op .outside .empty (.finish 0)] (g.closing w)
      [.drain 0, .reply .outside "end" .ok] := by
  refine .of_exec fun j => ?_
  have hdriving : g.spend.engine.driving = false := hd
  have htakers : g.spend.engine.bus.takers = [⟨k, 1, .type "PING", w⟩] := ht
  have hop : Instr.exec (g.world p j) (.op .outside .empty (.finish 0)) =
      some ((g.spend.world p j).opFinish .outside 0) := by
    simp only [Instr.exec, World.execOp, Stage.world_spend hb, Option.map_some]
    rfl
  rw [hop]
  simp only [World.opFinish, World.enterDriver, World.endBus, Bus.finish, htakers,
    Stage.world_engine, Stage.world_setEngine, Stage.world_schedule, Stage.world_record,
    Stage.setEngine, List.foldl_cons, List.foldl_nil, hdriving, Bool.false_eq_true, if_false]
  exact ⟨_, rfl⟩

/-- The watcher has ended its step after the end of the bus. -/
@[simp] def Stage.closed (g : Stage) (w : EffectId) : Stage :=
  ((((g.closing w).fetch {}).settle w).beginTurn 1).endTurn

theorem plays_closed {k : TakerId} {w : EffectId} {wait : WaitKind} (hb : 0 < g.budget)
    (ht : g.engine.bus.takers = [⟨k, 1, .type "PING", w⟩]) (hd : g.engine.driving = false)
    (ha : g.engine.agenda = {}) (hw : g.engine.waits.get? w = some ⟨1, .task, wait⟩)
    (hn : g.engine.tasks.get? 1 = some (watcherNode p crew .taking (some w))) :
    Plays p 6 g [.op .outside .empty (.finish 0)] (g.closed w)
      [.returned ⟨0, 1⟩ .unit, .drain 0, .reply .outside "end" .ok] := by
  let body : Body := .watcher { plan := plan p, phase := .taking }
  let g₁ := g.closing w
  have hnext : g₁.engine.agenda.next? = some (.reaction (.settle w .ended), {}) := by
    show (g.engine.agenda.schedule _).next? = _
    rw [ha]
    rfl
  let g₂ := ((g₁.fetch {}).settle w).beginTurn 1
  have hsettle : Plays p 1 (g₁.fetch {}) [.perform 0 (.reaction (.settle w .ended))] g₂
      [.leave ⟨0, 1⟩ body .ended] :=
    plays_settle_ended hw hn rfl rfl rfl
  have hleave : Plays p 1 g₂ [.leave ⟨0, 1⟩ body .ended] g₂.endTurn
      [.dropBody ⟨0, 1⟩ body, .returned ⟨0, 1⟩ .unit] := ⟨fun _ _ => ⟨_, rfl⟩⟩
  have hdrop : Plays p 2 g₂.endTurn [.dropBody ⟨0, 1⟩ body] g₂.endTurn [] := plays_drop rfl
  have hturn := (plays_fetch (p := p) hnext).trans
    (((hsettle.trans hleave).trans (hdrop.below [.returned ⟨0, 1⟩ .unit])).below [.drain 0])
  have hall := (plays_closing (p := p) hb ht hd).trans (hturn.below [.reply .outside "end" .ok])
  exact hall

/-- The watcher is over, or waits for its workers. -/
theorem Stage.Over.silence {k : TakerId} {w : EffectId}
    (h : g.Over p a crew [⟨k, 1, .type "PING", w⟩]) (hd : g.engine.driving = false)
    (hb : 0 < g.budget) :
    ∃ l ≤ 8, ∃ g', Plays p l g [.op .outside .empty (.finish 0)] g'
        [.drain 0, .reply .outside "end" .ok] ∧
      g'.Over p a crew [] ∧ g'.timers = g.timers ∧ g'.budget + 1 = g.budget ∧
      g'.labels = g.labels := by
  cases h.watched with
  | listens node wait live =>
  have hone : 1 ∉ crew := fun hm => absurd (h.company.above 1 hm) (by decide)
  have hclosed := plays_closed hb h.takers hd h.agenda wait node
  have hnode : (g.closed w).engine.tasks.get? 1 =
      some { watcherNode p crew .taking (some w) with body := none, status := .running } := by
    simp [node, watcherNode]
  have hover {g' : Stage} (hapart : g.Apart g' 1) (hn : g'.Numbered)
      (htm : g'.timers = g.timers) (hnt : g'.engine.nextTask = g.engine.nextTask)
      (hk : ∀ u, g'.engine.tasks.contains u = true → g.engine.tasks.contains u = true)
      (hw : g'.Watched p crew []) (htakers : g'.engine.bus.takers = [])
      (ha : g'.engine.agenda = {})
      (hout : g'.engine.outcomes.get? 2 = g.engine.outcomes.get? 2)
      (hcounts : (g'.pings, g'.pongs, g'.timeouts) = (g.pings, g.pongs, g.timeouts)) :
      g'.Over p a crew [] := by
    simp only [Prod.mk.injEq] at hcounts
    obtain ⟨hi, ho, ht⟩ := hcounts
    refine ⟨h.company.apart hapart hn hone htm hnt hk, hw, htakers, ha, ?_, hout.trans h.outcome,
      hi.trans h.pings, ho ▸ h.pongs, ht ▸ h.timeouts⟩
    cases hx : g'.engine.tasks.contains 2 with
    | false => rfl
    | true => exact absurd (hk 2 hx) (by rw [h.gone]; decide)
  obtain ⟨htasks, hwaits, hdeferreds, htimers⟩ := h.company.numbered
  have hbudget : g.budget - 1 + 1 = g.budget := by omega
  by_cases hcrew : crew = []
  · have hgone := plays_returned_root (p := p) (v := .unit) hnode rfl hcrew rfl rfl
    have hplays := hclosed.trans (hgone.below [.drain 0, .reply .outside "end" .ok])
    refine ⟨8, Nat.le_refl _, (g.closed w).retire 1 (.done .unit), hplays,
      hover ?_ ?_ rfl rfl (fun u hu => ?_) (.gone ?_ hcrew ?_) rfl rfl ?_ rfl, rfl, hbudget, rfl⟩
    · constructor <;> simp <;> grind
    · constructor <;> simp [Table.contains_modify, Table.contains_erase] <;> grind
    · simp [Table.contains_modify, Table.contains_erase] at hu ⊢
      exact hu.2
    · simp
    · simp
    · simp
  · have hheld := plays_returned_held (p := p) (v := .unit) hnode rfl hcrew
    have hplays := hclosed.trans (hheld.below [.drain 0, .reply .outside "end" .ok])
    let g' := (g.closed w).setTask 1 fun n => { n with result := some .unit, status := .suspended }
    have hnode' : g'.engine.tasks.get? 1 = some (heldNode crew (some w)) := by
      simp [g', node, watcherNode, heldNode]
    refine ⟨7, by decide, g', hplays, hover ?_ ?_ rfl rfl (fun u hu => ?_) (.held hnode' hcrew live)
      rfl rfl rfl rfl, rfl, hbudget, rfl⟩
    · constructor <;> simp [g'] <;> grind
    · constructor <;> simp [g', Table.contains_modify, Table.contains_erase] <;> grind
    · simpa [g', Table.contains_modify] using hu

/-- The bus has ended, and the driver is at rest. -/
theorem Stage.Over.close {k : TakerId} {w : EffectId}
    (h : g.Over p a crew [⟨k, 1, .type "PING", w⟩]) (hd : g.engine.driving = false)
    (hb : 0 < g.budget) :
    ∃ l ≤ 10, ∃ g', Plays p l g [.op .outside .empty (.finish 0)] g' [] ∧ g'.Over p a crew [] ∧
      g'.timers = g.timers ∧ g'.budget + 1 = g.budget ∧ g'.labels = g.labels ∧
      g'.engine.driving = false := by
  obtain ⟨l, hl, g₁, hplays, hover, htimers, hbudget, hlabels⟩ := h.silence hd hb
  let g₂ := g₁.around false g₁.now g₁.labels (some .ok) g₁.budget
  have hreply : Plays p 1 g₁.idle [.reply .outside "end" .ok] g₂ [] := ⟨fun _ _ => ⟨_, rfl⟩⟩
  have hall := hplays.trans (((plays_idle hover.agenda).below _).trans hreply)
  exact ⟨l + 2, by omega, g₂, hall, hover.around .., htimers, hbudget, hlabels, rfl⟩

/-! ## The whole session -/

theorem statusOf_of_outcome {label : String} {t : TaskRef} {o : Outcome} {journal : List Entry}
    (hl : g.labels.get? label = some t) (ht : t.owner = 0)
    (ho : g.engine.outcomes.get? t.id = some o) : statusOf (g.world p journal) label = o.status := by
  have hlabels : (g.world p journal).labels = g.labels := rfl
  simp only [statusOf, hlabels, hl, Option.map_some, Option.getD_some, World.statusOf,
    World.outcomeOf, ht, Stage.world_engine, ho]

theorem statusOf_of_node {label : String} {t : TaskRef} {n : TaskNode} {journal : List Entry}
    (hl : g.labels.get? label = some t) (ht : t.owner = 0)
    (ho : g.engine.outcomes.get? t.id = none) (hn : g.engine.tasks.get? t.id = some n) :
    statusOf (g.world p journal) label = n.status := by
  have hlabels : (g.world p journal).labels = g.labels := rfl
  simp only [statusOf, hlabels, hl, Option.map_some, Option.getD_some, World.statusOf,
    World.outcomeOf, ht, Stage.world_engine, ho, Stage.world_living?, Option.bind_some,
    Stage.middleware, hn]

/-- When the clock stops before the end of the bus, the pinger is done. -/
theorem Stage.Standing.stopped {journal : List Entry} (h : g.Standing p work)
    (hl : g.labels.get? "pinger" = some ⟨0, 2, "pinger"⟩)
    (hstop : (statusOf (g.world p journal) "pinger").isTerminal = true ∨ g.timers = []) :
    ∃ a crew k w, g.Over p a crew [⟨k, 1, .type "PING", w⟩] ∧ g.timers.length = work := by
  cases h with
  | ended h => exact ⟨_, _, _, _, h, rfl⟩
  | racing h =>
    exfalso
    rcases hstop with hdone | hnil
    · obtain ⟨env, hnode, -⟩ := h.node
      rw [statusOf_of_node hl rfl h.live hnode] at hdone
      cases hdone
    · obtain ⟨tm, hm, -⟩ := h.timer
      rw [hnil] at hm
      cases hm

/-- When the clock stops after the end of the bus, the watcher is done, and nobody is left. -/
theorem Stage.Over.settled {journal : List Entry} (h : g.Over p a crew [])
    (hl : g.labels.get? "watcher" = some ⟨0, 1, "take_every"⟩)
    (hstop : (statusOf (g.world p journal) "watcher").isTerminal = true ∨ g.timers = []) :
    crew = [] ∧ statusOf (g.world p journal) "watcher" = .done ∧ live (g.world p journal) = 0 := by
  cases h.watched with
  | held node busy live =>
    exfalso
    rcases hstop with hdone | hnil
    · rw [statusOf_of_node hl rfl live node] at hdone
      cases hdone
    · obtain ⟨t, ht⟩ := List.exists_mem_of_ne_nil _ busy
      obtain ⟨e, tm, hm, -⟩ := h.company.naps t ht
      rw [hnil] at hm
      cases hm
  | gone node idle ended =>
    refine ⟨idle, statusOf_of_outcome hl rfl ended, ?_⟩
    have hkeys : g.engine.tasks.keys = [] := by
      refine List.eq_nil_iff_forall_not_mem.2 fun t ht => ?_
      obtain ⟨n, hn⟩ := Table.mem_keys.1 ht
      have hcontains := Table.contains_of_get? hn
      rcases h.company.known t hcontains with rfl | rfl | hcrew
      · cases node.symm.trans hn
      · cases h.gone.symm.trans hcontains
      · rw [idle] at hcrew
        cases hcrew
    exact congrArg List.length (List.map_eq_nil_iff.1 hkeys)

theorem ofFields_tallies (pings pongs timeouts : Nat) :
    Json.ofFields [("pings", .ofNat pings), ("pongs", .ofNat pongs), ("timeouts", .ofNat timeouts)] =
      .obj (tallies pings pongs timeouts) := by
  have hpongs : ¬ "pongs" < "pings" ∧ "pongs" ≠ "pings" := by decide
  have htimeouts : (¬ "timeouts" < "pings" ∧ "timeouts" ≠ "pings") ∧
      ¬ "timeouts" < "pongs" ∧ "timeouts" ≠ "pongs" := by decide
  simp only [Json.ofFields, List.foldl_cons, List.foldl_nil, Json.insertField, if_neg hpongs.1,
    if_neg hpongs.2, if_neg htimeouts.1.1, if_neg htimeouts.1.2, if_neg htimeouts.2.1,
    if_neg htimeouts.2.2, tallies]

/-- What is seen of a session whose steps are these. -/
theorem play_of_steps {s : Session} {w₁ w₂ w₃ w₄ w₅ : World} {v : Value}
    (hop₁ : s.world.perform (.run 0 ponger (some "watcher")) = some w₁)
    (hop₂ : w₁.perform (.run 0 { source := .named "pinger" } (some "pinger")) = some w₂)
    (hrun₁ : runUntilDone "pinger" s.timerLimit w₂ = some w₃)
    (hop₃ : w₃.perform (.finish 0) = some w₄)
    (hrun₂ : runUntilDone "watcher" s.timerLimit w₄ = some w₅)
    (hv : (w₃.labels.get? "pinger").bind w₃.outcomeOf = some (.done v)) :
    ∃ r, s.play = some r ∧ r.answered = v.toJson ∧ r.state = (w₅.readState 0).1 ∧
      r.watcher = statusOf w₅ "watcher" ∧ r.liveAfter = live w₅ := by
  simp only [play, hop₁, hop₂, hrun₁, hop₃, hrun₂, hv, Option.bind_eq_bind, Option.bind_some,
    Option.pure_def]
  exact ⟨_, rfl, rfl, rfl, rfl, rfl⟩

/--
The session balances: the pinger and the watcher come to their ends, every PING has its PONG, every
round without an answer its TIMEOUT, and nobody is left.
-/
theorem play_balances (s : Session) (h : s.rounds ≤ 65535) :
    ∃ r a, s.play = some r ∧ a ≤ s.rounds ∧ r.answered = .ofNat a ∧
      r.state = .ofFields [("pings", .ofNat s.rounds), ("pongs", .ofNat s.rounds),
        ("timeouts", .ofNat (s.rounds - a))] ∧
      r.watcher = .done ∧ r.liveAfter = 0 := by
  have hmax : maxRounds = 65535 := rfl
  have hlimit : stepLimit = 10000000 := rfl
  -- the watcher is started
  let watcher : TaskRef := ⟨0, 1, "take_every"⟩
  let labels := Table.empty.insert "watcher" watcher
  obtain ⟨reply₁, hstarted₁⟩ := plays_started (p := s) (opened s false .empty) "watcher" watcher
  let g₁ := (opened s false .empty).around false 0 labels reply₁ (20 * s.rounds + 19)
  have hplays₁ : Plays s 11 (start s) [.op .outside .empty (.run 0 ponger (some "watcher"))] g₁ [] :=
    (plays_opened (p := s)).trans hstarted₁
  obtain ⟨j₁, hop₁⟩ := perform_of_plays (g := start s) [] hplays₁ (by decide)
  -- the pinger is started
  let pinger : TaskRef := ⟨0, 2, "pinger"⟩
  obtain ⟨g₂, env, hfirst, henv, hturning, htimers₂, hbudget₂, hlabels₂⟩ := plays_first (p := s) labels
  obtain ⟨l, hl, g₃, hturn, hstanding, hbudget₃, hlabels₃, hdriving₃⟩ :=
    hturning.turn (by omega) (by omega) henv
  rw [List.length_nil] at hl
  rw [htimers₂, List.length_nil, Nat.add_zero] at hstanding
  obtain ⟨reply₂, hstarted₂⟩ := plays_started (p := s) g₃ "pinger" pinger
  let g₄ := g₃.around false g₃.now (g₃.labels.insert "pinger" pinger) reply₂ g₃.budget
  have hplays₂ : Plays s (6 + l + 2) (opened s false labels)
      [.op .outside .empty (.run 0 { source := .named "pinger" } (some "pinger"))] g₄ [] := by
    rw [hdriving₃] at hstarted₂
    exact (hfirst.trans (hturn.below [.started .outside (some "pinger") pinger])).trans hstarted₂
  obtain ⟨j₂, hop₂⟩ := perform_of_plays (g := g₁) j₁ hplays₂ (by omega)
  have hlabels₄ : g₄.labels = labels.insert "pinger" pinger := by
    show g₃.labels.insert _ _ = _
    rw [hlabels₃, hlabels₂]
  -- the clock is set until the pinger is done
  obtain ⟨work, hwork, g₅, j₃, hrun₁, hstanding₅, hbudget₅, hlabels₅, hdriving₅, hstop₁⟩ :=
    (ticks_standing h).untilDone "pinger" 1 s.timerLimit (hstanding.around ..) rfl
      (Nat.le_succ _) (by omega) (show 8 * (2 * s.rounds) + 1 ≤ g₃.budget by omega) j₂
  obtain ⟨a, crew, k, w, hover, hlength⟩ :=
    hstanding₅.stopped (by rw [hlabels₅, hlabels₄]; rfl) hstop₁
  have hanswered : ((g₅.world s j₃).labels.get? "pinger").bind (g₅.world s j₃).outcomeOf =
      some (.done (.ofInt a)) := by
    have hpinger : (g₅.world s j₃).labels.get? "pinger" = some pinger := by
      show g₅.labels.get? "pinger" = _
      rw [hlabels₅, hlabels₄]
      rfl
    rw [hpinger]
    exact hover.outcome
  -- the bus ends, and the clock is set until the watcher is done
  obtain ⟨l', hl', g₆, hclose, hover₆, htimers₆, hbudget₆, hlabels₆, hdriving₆⟩ :=
    (hover.around g₅.engine.driving g₅.now g₅.labels none g₅.budget).close hdriving₅
      (show 0 < g₅.budget by omega)
  have htimers₆ : g₆.timers = g₅.timers := htimers₆
  have hbudget₆ : g₆.budget + 1 = g₅.budget := hbudget₆
  obtain ⟨j₄, hop₃⟩ := perform_of_plays (g := g₅) j₃ hclose (by omega)
  have hfuel : g₆.timers.length ≤ s.timerLimit := by
    have hlimit : s.timerLimit = 2 * s.rounds + 1 := rfl
    rw [htimers₆]
    omega
  obtain ⟨-, -, g₇, j₅, hrun₂, ⟨crew', hover₇, -⟩, -, hlabels₇, -, hstop₂⟩ :=
    (ticks_closing h).untilDone "watcher" 0 s.timerLimit ⟨crew, hover₆, rfl⟩ hdriving₆ hfuel
      (by rw [htimers₆]; omega) (by rw [htimers₆]; omega) j₄
  have hlabels₇ : g₇.labels = labels.insert "pinger" pinger := by
    rw [hlabels₇, hlabels₆]
    exact hlabels₅.trans hlabels₄
  obtain ⟨rfl, hwatcher, hlive⟩ := hover₇.settled (by rw [hlabels₇]; rfl) hstop₂
  -- what is seen of it
  have hpings := hover₇.pings
  have hpongs := hover₇.pongs
  have htimeouts := hover₇.timeouts
  rw [List.length_nil, Nat.add_zero] at hpongs
  obtain ⟨r, hplay, hr⟩ := play_of_steps hop₁ hop₂ hrun₁ hop₃ hrun₂ hanswered
  refine ⟨r, a, hplay, by omega, hr.1, hr.2.1.trans ?_, hr.2.2.1.trans hwatcher,
    hr.2.2.2.trans hlive⟩
  show Json.obj (tallies g₇.pings g₇.pongs g₇.timeouts) = _
  have hleft : g₇.timeouts = s.rounds - a := by omega
  rw [hpings, hpongs, hleft, ofFields_tallies]

/-- Two rounds with a latency that the timeout outlasts once. -/
theorem play_balances_two : ∃ r a, (Session.mk 2 40 100).play = some r ∧ a ≤ 2 ∧ r.answered = .ofNat a ∧
    r.state = .ofFields [("pings", .ofNat 2), ("pongs", .ofNat 2), ("timeouts", .ofNat (2 - a))] ∧
    r.watcher = .done ∧ r.liveAfter = 0 :=
  play_balances ⟨2, 40, 100⟩ (by decide)

end Session

end SagaMachine
