import SagaMachine.Proofs.Company
import SagaMachine.Proofs.Deliveries

/-!
# The rounds of a session

Between two settings of the clock a session is in a race, with `left` rounds to come
(`Stage.Racing`), or after its last round (`Stage.Over`). In both, each PING that the host has seen
has its PONG or a worker that sleeps, and each round that began has its TIMEOUT, its answer, or the
race that is under way: a late PONG answers a later round, and the sums do not care which one.
-/

namespace SagaMachine

namespace Session

variable {p : Session} {g g' g'' : Stage} {t u : TaskId} {e : EffectId} {d : TimerId} {n : TaskNode}
  {kind : WaitKind} {env : Env} {into : Option String} {agenda : Agenda} {a : Action}
  {kids crew : List TaskId} {spare : List TimerId} {own : List BusTaker} {left : Nat} {r : RaceIds}
  {m : Nat} {tm : Timer} {target : Nat}

/-! ## A worker answers -/

/-- A worker that slept has sent its PONG, and the host has seen it. -/
@[simp] def Stage.ponged (g : Stage) (t : TaskId) (e : EffectId) (env : Env)
    (woken kept : List BusTaker) : Stage :=
  (g.answered {} t e env).passed {} (pongOf env) g.engine.nextEffect woken kept

theorem plays_ponged {woken kept : List BusTaker}
    (ha : g.engine.agenda.next? = some (.reaction (.settle e (.value .unit)), {}))
    (hw : g.engine.waits.get? e = some ⟨t, .task, kind⟩)
    (hn : g.engine.tasks.get? t = some (workerNode [.block [sendPong]] env e))
    (hb : 0 < g.budget) (hi : g.pings ≤ maxRounds) (ho : g.pongs ≤ maxRounds)
    (ht : g.timeouts ≤ maxRounds)
    (hbus : g.engine.bus.broadcast (pongOf env) = ⟨woken, kept, []⟩) :
    Plays p 13 g [.drain 0] (g.ponged t e env woken kept) [.drain 0] :=
  (plays_answered ha hw hn hb).trans
    (plays_passed rfl (Or.inr (Or.inl rfl)) hi ho ht hbus)

/-- Workers and the watcher may be over; all else is as before. -/
structure Stage.Relieves (g g' : Stage) : Prop where
  keeps : g.Keeps g' 2
  contains : g'.engine.tasks.contains 2 = true → g.engine.tasks.contains 2 = true
  bus : g'.engine.bus = g.engine.bus
  outcome : g'.engine.outcomes.get? 2 = g.engine.outcomes.get? 2
  timers : g'.timers = g.timers
  budget : g'.budget = g.budget
  labels : g'.labels = g.labels
  counts : (g'.pings, g'.pongs, g'.timeouts) = (g.pings, g.pongs, g.timeouts)

theorem Stage.Relieves.trans (h : g.Relieves g') (h' : g'.Relieves g'') : g.Relieves g'' where
  keeps := h.keeps.trans h'.keeps
  contains hx := h.contains (h'.contains hx)
  bus := h'.bus.trans h.bus
  outcome := h'.outcome.trans h.outcome
  timers := h'.timers.trans h.timers
  budget := h'.budget.trans h.budget
  labels := h'.labels.trans h.labels
  counts := h'.counts.trans h.counts

/-- A worker that was seen is over; if it was the last one that the watcher waits for, so is the watcher. -/
theorem plays_relief (hc : g.Company kids (kids.filter (· ≠ t)) spare) (hw : g.Watched p kids own)
    (ht : t ∈ kids) (ha : g.engine.agenda.next? = some (.reaction (.settle e (.value .unit)), agenda))
    (hwait : g.engine.waits.get? e = some ⟨t, .task, kind⟩)
    (hn : g.engine.tasks.get? t = some (workerNode [.block []] env e)) :
    ∃ k ≤ 13, ∃ g', Plays p k g [.drain 0] g' [.drain 0] ∧
      g'.Company (kids.filter (· ≠ t)) (kids.filter (· ≠ t)) spare ∧
      g'.Watched p (kids.filter (· ≠ t)) own ∧ g.Relieves g' ∧ g'.engine.agenda = agenda := by
  have hone : 1 ∉ kids := fun h => absurd (hc.above 1 h) (by decide)
  have hne : t ≠ 1 := fun h => hone (h ▸ ht)
  have htwo : 2 ≠ t := Nat.ne_of_lt (hc.above t ht)
  have hcompany : (g.relieved agenda t e kids).Company (kids.filter (· ≠ t)) (kids.filter (· ≠ t))
      spare := hc.relieved hone hwait
  have houtcome (o : Option Outcome) (ho : g.engine.outcomes.get? 1 = o) :
      (g.relieved agenda t e kids).engine.outcomes.get? 1 = o := by
    simp [hne.symm, ho]
  have hrelieves : g.Relieves (g.relieved agenda t e kids) := by
    refine ⟨⟨fun n hn => by simp [htwo, hn], fun e' w hw hown => ?_⟩, fun hx => ?_, rfl, ?_, rfl, rfl,
      rfl, rfl⟩
    · have hne' : e' ≠ e := Stage.ne_of_owner hw hwait (hown ▸ htwo)
      simpa [hne'] using hw
    · simpa [Table.contains_modify, Table.contains_erase, htwo] using hx
    · simp [htwo]
  cases hw with
  | listens node wait live =>
    refine ⟨12, by decide, _, plays_relieved ha hwait hn node rfl hne, hcompany, ?_, hrelieves, rfl⟩
    have hwe := Stage.ne_of_owner wait hwait hne.symm
    exact .listens (by simp [node, hne.symm, watcherNode]) (by simp [hwe, wait]) (houtcome _ live)
  | @held pending node busy live =>
    have hplays := plays_relieved (p := p) ha hwait hn node rfl hne
    have hnode : (g.relieved agenda t e kids).engine.tasks.get? 1 =
        some (heldNode (kids.filter (· ≠ t)) pending) := by
      simp [node, hne.symm, heldNode]
    cases hk : kids.filter (· ≠ t) with
    | cons u us =>
      have hnone : (if (heldNode kids pending).result.isSome &&
          ((heldNode kids pending).children.filter (· ≠ t)).isEmpty then [Instr.cascade 0 (.complete 1)]
            else []) = [] := by
        simp only [heldNode, hk, List.isEmpty_cons, Bool.and_false, Bool.false_eq_true, if_false]
      rw [hnone] at hplays
      exact ⟨12, by decide, _, hplays, hk ▸ hcompany, .held (hk ▸ hnode) (List.cons_ne_nil _ _)
        (houtcome _ live), hrelieves, rfl⟩
    | nil =>
      have hlast : (if (heldNode kids pending).result.isSome &&
          ((heldNode kids pending).children.filter (· ≠ t)).isEmpty then [Instr.cascade 0 (.complete 1)]
            else []) = [.cascade 0 (.complete 1)] := by
        simp only [heldNode, hk, List.isEmpty_nil, Option.isSome_some, Bool.and_self, if_true]
      rw [hlast] at hplays
      have hretire := plays_cascade_root (p := p) hnode rfl rfl rfl rfl
      refine ⟨13, by decide, _, hplays.trans (hretire.below _), ?_, ?_, hrelieves.trans ?_, rfl⟩
      · rw [hk] at hcompany
        refine hcompany.apart (t := 1) ⟨fun u n hu hne => ?_, fun _ _ h _ => h,
          fun _ _ _ h _ _ => h⟩ hcompany.numbered.retire List.not_mem_nil rfl rfl fun u hu => ?_
        · simpa [hne] using hu
        · simp [Table.contains_modify, Table.contains_erase] at hu ⊢
          grind
      · exact .gone (by simp) rfl (by simp)
      · exact ⟨⟨fun n hn => by simpa using hn, fun _ _ h _ => h⟩,
          fun hx => by simpa [Table.contains_modify, Table.contains_erase] using hx, rfl, by simp,
          rfl, rfl, rfl, rfl⟩
  | gone node idle ended =>
    rw [idle] at ht
    exact absurd ht List.not_mem_nil

/-! ## After the last round -/

/-- The pinger is done, with `a` rounds answered. -/
structure Stage.Over (p : Session) (a : Nat) (crew : List TaskId) (own : List BusTaker) (g : Stage) :
    Prop where
  company : g.Company crew crew []
  watched : g.Watched p crew own
  takers : g.engine.bus.takers = own
  agenda : g.engine.agenda = {}
  gone : g.engine.tasks.contains 2 = false
  outcome : g.engine.outcomes.get? 2 = some (.done (.ofInt a))
  pings : g.pings = p.rounds
  pongs : g.pongs + crew.length = p.rounds
  timeouts : g.timeouts + a = p.rounds

theorem Stage.Over.around {a : Nat} (h : g.Over p a crew own) (driving : Bool) (now : Nat)
    (labels : Table String TaskRef) (reply : Option Reply) (budget : Nat) :
    (g.around driving now labels reply budget).Over p a crew own where
  company := h.company.around ..
  watched := h.watched.around ..
  takers := h.takers
  agenda := h.agenda
  gone := h.gone
  outcome := h.outcome
  pings := h.pings
  pongs := h.pongs
  timeouts := h.timeouts

/-- The timer that is due belongs to a worker, or is spare. -/
theorem Stage.Company.due_cases (h : g.Company kids crew spare)
    (hdue : (g.world p []).dueTimer? target = some tm) :
    tm ∈ g.timers ∧ tm.deferred = tm.id ∧ tm.answer = .ok .unit ∧
      (tm.id ∈ spare ∨ ∃ t ∈ crew, ∃ e, g.Naps t e tm.id) := by
  have hm : tm ∈ g.timers := World.mem_of_dueTimer? hdue
  exact ⟨hm, h.due tm hm⟩

/-- The timer of a worker fires. -/
theorem Stage.Naps.plays_fire (h : g.Naps t e tm.id) (hd : tm.deferred = tm.id)
    (hans : tm.answer = .ok .unit) (hdue : (g.world p []).dueTimer? target = some tm)
    (hdriving : g.engine.driving = false) :
    Plays p 1 g [.moveClock target] (g.fire tm e) [.drain 0, .moveClock target] :=
  Session.plays_fire hdue hans (by rw [hd]; exact h.deferred) rfl rfl hdriving

theorem length_filter_ne (hn : crew.Nodup) (ht : t ∈ crew) :
    (crew.filter (· ≠ t)).length + 1 = crew.length := by
  have hcount := hn.count (a := t)
  have hsplit := List.length_eq_countP_add_countP (fun u => decide (u ≠ t)) (l := crew)
  rw [List.countP_eq_length_filter] at hsplit
  have hone : crew.countP (fun u => decide ¬(decide (u ≠ t)) = true) = 1 := by
    rw [if_pos ht, List.count] at hcount
    rw [← hcount]
    exact List.countP_congr fun u _ => by simp
  omega

/-- The timer of a worker fires, and the host sees its PONG. -/
theorem plays_answer_timer {woken kept others : List BusTaker}
    (hc : g.Company crew crew spare) (hw : g.Watched p crew own) (ht : t ∈ crew)
    (hnap : g.Naps t e tm.id)
    (hnode : g.engine.tasks.get? t = some (workerNode [.block [sendPong]] env e))
    (hdue : (g.world p []).dueTimer? target = some tm) (hdriving : g.engine.driving = false)
    (ha : g.engine.agenda = {}) (hb : 0 < g.budget) (hi : g.pings ≤ maxRounds)
    (ho : g.pongs ≤ maxRounds) (hto : g.timeouts ≤ maxRounds)
    (htakers : g.engine.bus.takers = own ++ others)
    (hbus : Bus.select (.action (pongOf env)) [] others = ⟨woken, kept, []⟩) :
    ∃ g' e', Plays p 14 g [.moveClock target] g' [.drain 0, .moveClock target] ∧
      g'.Company crew (crew.filter (· ≠ t)) spare ∧ g'.Watched p crew own ∧ g.Apart g' t ∧
      g'.engine.tasks.get? t = some (workerNode [.block []] env e') ∧
      g'.engine.waits.get? e' = some ⟨t, .task, .put⟩ ∧
      (∀ u, g'.engine.tasks.contains u = true → g.engine.tasks.contains u = true) ∧
      g'.engine.agenda = { fresh := woken.map (fun t => .settle t.effect (.value (.action (pongOf env)))) ++
        [.settle e' (.value .unit)] } ∧
      g'.engine.bus = { g.engine.bus with takers := own ++ kept } ∧
      g'.engine.outcomes = g.engine.outcomes ∧
      g'.timers = (g.timers.filter fun u => u.id ≠ tm.id) ∧ tm ∈ g.timers ∧ g'.budget + 1 = g.budget ∧
      (g'.pings, g'.pongs, g'.timeouts) = (g.pings, g.pongs + 1, g.timeouts) ∧
      g'.labels = g.labels := by
  let g' := (g.fire tm e).ponged t e env woken (own ++ kept)
  obtain ⟨hm, hdef, hans, -⟩ := hc.due_cases hdue
  have hone : t ≠ 1 := fun he => absurd (hc.above t ht) (by rw [he]; decide)
  let g₁ := g.fire tm e
  have hc₁ : g₁.Company crew (crew.filter (· ≠ t)) spare := hc.fire_worker hm ht hnap
  have ha₁ : g₁.engine.agenda.next? = some (.reaction (.settle e (.value .unit)), {}) := by
    show (g.engine.agenda.schedule _).next? = _
    rw [ha]
    rfl
  have hbus₁ : g₁.engine.bus.broadcast (pongOf env) = ⟨woken, own ++ kept, []⟩ := by
    show Bus.select _ [] g.engine.bus.takers = _
    rw [htakers, hw.select (by simp [pongOf, World.evalAction]), hbus]
  have hpong : Plays p 13 g₁ [.drain 0] g' [.drain 0] :=
    plays_ponged ha₁ hnap.wait hnode hb hi ho hto hbus₁
  have hapart : g₁.Apart g' t := (Stage.Apart.answered hc₁.numbered hnap.wait).trans .passed
  have hcontains (u : TaskId) (hu : g'.engine.tasks.contains u = true) :
      g₁.engine.tasks.contains u = true := by
    simpa [g', g₁, Table.contains_modify] using hu
  refine ⟨g', g.engine.nextEffect, (hnap.plays_fire hdef hans hdue hdriving).trans (hpong.below _),
    hc₁.apart hapart hc₁.numbered.answered.passed (by simp) rfl rfl hcontains,
    (Stage.Watched.fire hw).apart hapart hone (hcontains 1) rfl,
    (hnap.apart_fire hdef).trans hapart, by simp [g', hnode, workerNode], by simp [g'], hcontains,
    rfl, rfl, rfl, rfl, hm, ?_, rfl, rfl⟩
  show g.budget - 1 + 1 = _
  omega

/-- One by one the workers answer. -/
theorem Stage.Over.tick {a : Nat} (h : g.Over p a crew own) (hp : p.rounds ≤ maxRounds)
    (hdue : (g.world p []).dueTimer? target = some tm) (hdriving : g.engine.driving = false)
    (hb : 0 < g.budget) :
    ∃ k ≤ 28, ∃ g' crew', Plays p k g [.moveClock target] g' [.moveClock target] ∧
      g'.Over p a crew' own ∧ crew'.length + 1 = crew.length ∧
      g'.timers.length < g.timers.length ∧ g'.budget + 1 = g.budget ∧ g'.labels = g.labels ∧
      g'.engine.driving = false := by
  have hpings := h.pings
  have hpongs := h.pongs
  have htimeouts := h.timeouts
  obtain ⟨hm, -, -, hor⟩ := h.company.due_cases hdue
  obtain ⟨t, ht, e, hnap⟩ := hor.resolve_left List.not_mem_nil
  have hne : 1 ≠ t ∧ 2 ≠ t := by
    have := h.company.above t ht
    constructor <;> rintro rfl <;> exact absurd this (by decide)
  obtain ⟨env, hnode⟩ := hnap.task
  have hselect : Bus.select (.action (pongOf env)) [] [] = ⟨[], [], []⟩ := rfl
  obtain ⟨g₁, e₁, hplays, hc, hw, -, hnode₁, hwait₁, hcontains, hagenda, hbus, hout, htimers, -, hbudget,
    hcounts, hlabels⟩ := plays_answer_timer h.company h.watched ht hnap hnode hdue hdriving h.agenda hb
    (by omega) (by omega) (by omega) (by rw [h.takers, List.append_nil]) hselect
  have hnext : g₁.engine.agenda.next? = some (.reaction (.settle e₁ (.value .unit)), {}) := by
    rw [hagenda]
    rfl
  obtain ⟨k, hk, g', hrelief, hc', hw', hrelieves, hagenda'⟩ :=
    plays_relief hc hw ht hnext hwait₁ hnode₁
  simp only [Prod.mk.injEq] at hcounts
  have hcounts' := hrelieves.counts
  simp only [Prod.mk.injEq] at hcounts'
  have hlength := length_filter_ne h.company.nodup ht
  refine ⟨14 + k + 1, by omega, g'.idle, crew.filter (· ≠ t),
    (hplays.trans (hrelief.below _)).trans ((plays_idle hagenda').below _), ?_, hlength, ?_, ?_,
    hrelieves.labels.trans hlabels, rfl⟩
  · refine ⟨hc'.around .., hw'.around .., ?_, hagenda', ?_, ?_, ?_, ?_, ?_⟩
    · show g'.engine.bus.takers = own
      rw [hrelieves.bus, hbus]
      exact List.append_nil own
    · cases hx : g'.idle.engine.tasks.contains 2 with
      | false => rfl
      | true => exact absurd (hcontains 2 (hrelieves.contains hx)) (by rw [h.gone]; decide)
    · show g'.engine.outcomes.get? 2 = _
      rw [hrelieves.outcome, hout, h.outcome]
    · show g'.pings = _
      omega
    · show g'.pongs + _ = _
      omega
    · show g'.timeouts + _ = _
      omega
  · show g'.timers.length < _
    rw [hrelieves.timers, htimers]
    exact List.length_filter_lt_length_iff_exists.2 ⟨tm, hm, by simp⟩
  · show g'.budget + 1 = _
    rw [hrelieves.budget]
    omega

/-! ## A round begins -/

/-- The pinger waits for a PONG, with `left` rounds to come and `a` rounds answered. -/
structure Stage.Racing (p : Session) (left a : Nat) (crew : List TaskId) (r : RaceIds)
    (w : EffectId) (k : TakerId) (g : Stage) : Prop where
  company : g.Company crew crew [r.timer]
  watched : g.Watched p crew [⟨k, 1, .type "PING", w⟩]
  takers : g.engine.bus.takers =
    [⟨k, 1, .type "PING", w⟩] ++ [⟨r.taker, 2, .type "PONG", r.take⟩]
  taker_ne : k ≠ r.taker
  unended : g.engine.bus.watermark = none
  agenda : g.engine.agenda = {}
  races : g.Races 2 ["pong", "timeout"] r
  deferred : g.deferreds.get? r.timer =
    some { timer := some r.timer, listener := some ⟨0, r.delay⟩ }
  timer : ∃ tm ∈ g.timers, tm.id = r.timer
  node : ∃ env : Env, g.engine.tasks.get? 2 =
      some (pingerNode (.block [judge] :: loopControl p left) env (some "winner") r.race) ∧
    env.get? "answered" = some (.ofInt a)
  live : g.engine.outcomes.get? 2 = none
  pings : g.pings + left = p.rounds
  pongs : g.pongs + crew.length = g.pings
  timeouts : g.timeouts + a + 1 = g.pings

theorem Stage.Racing.around {a : Nat} {w : EffectId} {k : TakerId}
    (h : g.Racing p left a crew r w k) (driving : Bool) (now : Nat) (labels : Table String TaskRef)
    (reply : Option Reply) (budget : Nat) :
    (g.around driving now labels reply budget).Racing p left a crew r w k where
  company := h.company.around ..
  watched := h.watched.around ..
  takers := h.takers
  taker_ne := h.taker_ne
  unended := h.unended
  agenda := h.agenda
  races := ⟨h.races.race, h.races.take, h.races.delay⟩
  deferred := h.deferred
  timer := h.timer
  node := h.node
  live := h.live
  pings := h.pings
  pongs := h.pongs
  timeouts := h.timeouts

/-- The pinger has sent a PING that the host has not seen yet. -/
structure Stage.Sending (p : Session) (left a : Nat) (crew : List TaskId) (e : EffectId)
    (ping : Action) (w : EffectId) (k : TakerId) (g : Stage) : Prop where
  company : g.Company crew crew []
  watched : g.Watched p crew [⟨k, 1, .type "PING", w⟩]
  takers : g.engine.bus.takers = [⟨k, 1, .type "PING", w⟩]
  unended : g.engine.bus.watermark = none
  agenda : g.engine.agenda = { errands := [.dispatch ping (some e)] }
  kind : ping.kind = "PING"
  wait : g.engine.waits.get? e = some ⟨2, .task, .put⟩
  node : ∃ env : Env, g.engine.tasks.get? 2 =
      some (pingerNode (.block [awaitPong p.timeout, judge] :: loopControl p left) env none e) ∧
    env.get? "answered" = some (.ofInt a)
  live : g.engine.outcomes.get? 2 = none
  pings : g.pings + left + 1 = p.rounds
  pongs : g.pongs + crew.length = g.pings
  timeouts : g.timeouts + a = g.pings

/-- The variables of a worker. -/
def workerEnv (p : Session) (ping : Action) (t : TaskId) : Env :=
  ((plan p).env.insert "action" (.action ping)).insert "self" (.ofInt t)

/-- The watcher has a PING: a worker is forked and sleeps, and the watcher takes again. -/
theorem plays_worker {ping : Action} {w : EffectId} {k : TakerId} {stack : List Reaction}
    (hc : g.Company crew crew []) (hw : g.Watched p crew [⟨k, 1, .type "PING", w⟩])
    (ha : g.engine.agenda.next? =
      some (.reaction (.settle w (.value (.action ping))), { stack }))
    (htakers : g.engine.bus.takers = []) (hmark : g.engine.bus.watermark = none)
    (hb : 0 < g.budget) :
    ∃ g' t w' k', Plays p 22 g [.drain 0] g' [.drain 0] ∧
      g'.Company (crew ++ [t]) (crew ++ [t]) [] ∧
      g'.Watched p (crew ++ [t]) [⟨k', 1, .type "PING", w'⟩] ∧ g.Keeps g' 2 ∧
      g'.engine.bus = { takers := [⟨k', 1, .type "PING", w'⟩], nextTaker := k' + 1 } ∧
      g'.engine.agenda = { stack } ∧ g'.engine.outcomes = g.engine.outcomes ∧
      g'.timers.length = g.timers.length + 1 ∧ g'.budget + 1 = g.budget ∧
      (g'.pings, g'.pongs, g'.timeouts) = (g.pings, g.pongs, g.timeouts) ∧
      g'.labels = g.labels := by
  have hone : 1 ∉ crew := fun hm => absurd (hc.above 1 hm) (by decide)
  cases hw with
  | listens hwatch hwait hlive =>
  let t := g.engine.nextTask
  have htwo : 2 < t := hc.two
  have hne : 1 ≠ t := Nat.ne_of_lt (Nat.lt_of_succ_lt htwo)
  -- a worker is forked
  let g₁ := g.forking (p := p) { stack } w ping
  have hfork : Plays p 7 g [.drain 0] g₁ [.drain 0] := plays_forking ha hwait hwatch hne
  have hc₁ : g₁.Company (crew ++ [t]) crew [] := hc.forking hone hwait
  have hapart₁ : g.Apart g₁ 1 := .forking hc.numbered hwait
  let env := workerEnv p ping t
  have hfresh : g₁.engine.tasks.get? t = some (freshNode p env) := by
    simp [g₁, t, hne.symm, freshNode, WatchPlan.workerFor, Program.start, plan, env, workerEnv]
  have hwatch₁ : g₁.engine.tasks.get? 1 = some (watcherNode p (crew ++ [t]) .forking none) := by
    simp [g₁, t, hne, hwatch, watcherNode]
  have hagenda₁ : g₁.engine.agenda =
      { stack, fresh := [.start t, .resume 1 (.value (.task ⟨0, t, "pong"⟩))] } := rfl
  have hscalars₁ : g₁.engine.bus = g.engine.bus ∧ g₁.engine.outcomes = g.engine.outcomes ∧
      g₁.timers.length = g.timers.length ∧ g₁.budget = g.budget ∧ g₁.labels = g.labels ∧
      (g₁.pings, g₁.pongs, g₁.timeouts) = (g.pings, g.pongs, g.timeouts) :=
    ⟨rfl, rfl, rfl, rfl, rfl, rfl⟩
  clear_value g₁
  obtain ⟨hbus₁, hout₁, htimers₁, hbudget₁, hlabels₁, hcounts₁⟩ := hscalars₁
  -- it goes to sleep
  let ag₂ : Agenda := { stack := .resume 1 (.value (.task ⟨0, t, "pong"⟩)) :: stack }
  let g₂ := g₁.napping ag₂ t env (latency p env)
  have hsleep : Plays p 8 g₁ [.drain 0] g₂ [.drain 0] :=
    plays_napping (by rw [hagenda₁]; rfl) hfresh (by omega)
  have hnot : t ∉ crew := fun hm =>
    (List.nodup_append.1 hc₁.nodup).2.2 t hm t (List.mem_singleton.2 rfl) rfl
  have hc₂ : g₂.Company (crew ++ [t]) (crew ++ [t]) [] :=
    hc₁.napping (List.mem_append_right _ (List.mem_singleton.2 rfl)) hnot hfresh
  have hapart₂ : g₁.Apart g₂ t := .napping hc₁.numbered
  have hwatch₂ : g₂.engine.tasks.get? 1 = some (watcherNode p (crew ++ [t]) .forking none) :=
    hapart₂.tasks _ _ hwatch₁ hne
  have hagenda₂ : g₂.engine.agenda = ag₂ := rfl
  have hscalars₂ : g₂.engine.bus = g₁.engine.bus ∧ g₂.engine.outcomes = g₁.engine.outcomes ∧
      g₂.timers.length = g₁.timers.length + 1 ∧ g₂.budget = g₁.budget - 1 ∧
      g₂.labels = g₁.labels ∧ (g₂.pings, g₂.pongs, g₂.timeouts) = (g₁.pings, g₁.pongs, g₁.timeouts) :=
    ⟨rfl, rfl, List.length_append, rfl, rfl, rfl⟩
  clear_value g₂
  obtain ⟨hbus₂, hout₂, htimers₂, hbudget₂, hlabels₂, hcounts₂⟩ := hscalars₂
  -- the watcher takes again
  let g₃ := g₂.listening p { stack }
  have hmark₂ : g₂.engine.bus.watermark = none := by rw [hbus₂, hbus₁, hmark]
  have hlisten : Plays p 7 g₂ [.drain 0] g₃ [.drain 0] := by
    have hnext : g₂.engine.agenda.next? =
        some (.reaction (.resume 1 (.value (.task ⟨0, t, "pong"⟩))), { stack }) := by
      rw [hagenda₂]
      rfl
    refine plays_listening hnext hwatch₂ ?_
    simp only [Bus.hasEnded, hmark₂]
  have hapart₃ : g₂.Apart g₃ 1 := .listening hc₂.numbered
  have hone' : 1 ∉ crew ++ [t] := by simp [hone, hne]
  have hc₃ : g₃.Company (crew ++ [t]) (crew ++ [t]) [] :=
    hc₂.apart hapart₃ hc₂.numbered.listening hone' rfl rfl fun u hu => by
      simpa [g₃, Table.contains_modify] using hu
  have hkeeps : g.Keeps g₃ 2 := ((hapart₁.keeps (by decide)).trans
    (hapart₂.keeps (Nat.ne_of_lt htwo))).trans (hapart₃.keeps (by decide))
  refine ⟨g₃, t, g₂.engine.nextEffect, g₂.engine.bus.nextTaker,
    (hfork.trans hsleep).trans hlisten, hc₃, ?_, hkeeps, ?_, rfl, hout₂.trans hout₁, ?_, ?_,
    hcounts₂.trans hcounts₁, hlabels₂.trans hlabels₁⟩
  · refine .listens ?_ (by simp [g₃]) ?_
    · simp [g₃, hwatch₂, watcherNode]
    · show g₂.engine.outcomes.get? 1 = none
      rw [hout₂, hout₁, hlive]
  · simp [g₃, hbus₂, hbus₁, htakers, hmark]
  · show g₂.timers.length = _
    omega
  · show g₂.budget + 1 = _
    omega

/-- The pinger waits for a PONG or for the timeout. -/
theorem plays_race {k : TakerId} {w : EffectId} (hc : g.Company crew crew [])
    (hwatched : g.Watched p crew own)
    (ha : g.engine.agenda.next? = some (.reaction (.settle e (.value .unit)), {}))
    (hw : g.engine.waits.get? e = some ⟨2, .task, kind⟩)
    (hn : g.engine.tasks.get? 2 =
      some (pingerNode (.block [awaitPong p.timeout, judge] :: loopControl p left) env none e))
    (hbus : g.engine.bus = { takers := [⟨k, 1, .type "PING", w⟩], nextTaker := k + 1 })
    (hb : 0 < g.budget) :
    ∃ g' r, Plays p 12 g [.drain 0] g' [.drain 0] ∧ g'.Company crew crew [r.timer] ∧
      g'.Watched p crew own ∧ g'.Races 2 ["pong", "timeout"] r ∧
      g'.deferreds.get? r.timer =
        some { timer := some r.timer, listener := some ⟨0, r.delay⟩ } ∧
      (∃ tm ∈ g'.timers, tm.id = r.timer) ∧
      g'.engine.tasks.get? 2 =
        some (pingerNode (.block [judge] :: loopControl p left) env (some "winner") r.race) ∧
      g'.engine.bus = { takers := [⟨k, 1, .type "PING", w⟩, ⟨r.taker, 2, .type "PONG", r.take⟩]
                        nextTaker := k + 1 + 1 } ∧
      r.taker = k + 1 ∧ g'.engine.agenda = {} ∧ g'.engine.outcomes = g.engine.outcomes ∧
      g'.timers.length = g.timers.length + 1 ∧ g'.budget + 1 = g.budget ∧
      (g'.pings, g'.pongs, g'.timeouts) = (g.pings, g.pongs, g.timeouts) ∧
      g'.labels = g.labels := by
  have htwo : 2 ∉ crew := fun hm => absurd (hc.above 2 hm) (by decide)
  let r : RaceIds :=
    { race := g.engine.nextEffect, take := g.engine.nextEffect + 1
      delay := g.engine.nextEffect + 2, taker := g.engine.bus.nextTaker, timer := g.nextTimer }
  let g' := g.waiting p {} e left env
  have hplays : Plays p 12 g [.drain 0] g' [.drain 0] := by
    refine plays_waiting ha hw hn hb ?_
    rw [hbus]
    rfl
  have hapart : g.Apart g' 2 := .waiting hc.numbered hw
  have hcontains (u : TaskId) (hu : g'.engine.tasks.contains u = true) :
      g.engine.tasks.contains u = true := by
    simpa [g', Table.contains_modify] using hu
  have hraces : g'.Races 2 ["pong", "timeout"] r := by
    have hne : g.engine.nextEffect ≠ g.engine.nextEffect + 1 + 1 :=
      Nat.ne_of_lt (Nat.lt_succ_of_lt (Nat.lt_succ_self _))
    refine ⟨?_, ?_, ?_⟩ <;> simp [g', r, WaitKind.setMember, hne]
  refine ⟨g', r, hplays, hc.waiting htwo hw, hwatched.apart hapart (by decide) (hcontains 1) rfl,
    hraces, by simp [g', r], ⟨_, List.mem_append_right _ (List.mem_singleton.2 rfl), rfl⟩, ?_, ?_,
    ?_, rfl, rfl, List.length_append, ?_, rfl, rfl⟩
  · simp [g', r, hn, pingerNode]
  · simp [g', r, hbus]
  · simp [r, hbus]
  · show g.budget - 1 + 1 = _
    omega

/-- The PING is seen, a worker is forked, and the pinger waits. -/
theorem Stage.Sending.ping {a : Nat} {ping : Action} {w : EffectId} {k : TakerId}
    (h : g.Sending p left a crew e ping w k) (hp : p.rounds ≤ maxRounds) (hb : 1 < g.budget) :
    ∃ g' t r w' k', Plays p 39 g [.drain 0] g' [.drain 0] ∧
      g'.Racing p left a (crew ++ [t]) r w' k' ∧ g'.timers.length = g.timers.length + 2 ∧
      g'.budget + 2 = g.budget ∧ g'.labels = g.labels := by
  have hpings := h.pings
  have hpongs := h.pongs
  have htimeouts := h.timeouts
  have hone : 1 ∉ crew := fun hm => absurd (h.company.above 1 hm) (by decide)
  obtain ⟨env, hnode, henv⟩ := h.node
  -- the host sees the PING
  let g₁ := g.passed {} ping e [⟨k, 1, .type "PING", w⟩] []
  have hpass : Plays p 5 g [.drain 0] g₁ [.drain 0] := by
    refine plays_passed (by rw [h.agenda]; rfl) (Or.inl h.kind) (by omega) (by omega) (by omega) ?_
    show Bus.select _ [] g.engine.bus.takers = _
    rw [h.takers]
    simp [Bus.select, Pattern.accepts, Pattern.notes, Value.kind?, h.kind]
  have hc₁ : g₁.Company crew crew [] :=
    h.company.apart .passed h.company.numbered.passed hone rfl rfl fun _ hu => hu
  have hw₁ : g₁.Watched p crew [⟨k, 1, .type "PING", w⟩] :=
    h.watched.apart (.passed (t := 2)) (by decide) (fun hu => hu) rfl
  have hping : g₁.pings = g.pings + 1 := if_pos h.kind
  have hpong : g₁.pongs = g.pongs := if_neg (by rw [h.kind]; decide)
  have htimeout : g₁.timeouts = g.timeouts := if_neg (by rw [h.kind]; decide)
  have hnext : g₁.engine.agenda.next? = some (.reaction (.settle w (.value (.action ping))),
      { stack := [.settle e (.value .unit)] }) := rfl
  -- a worker is forked, and the pinger waits
  obtain ⟨g₂, t, w', k', hplays₂, hc₂, hw₂, hkeeps, hbus₂, hagenda₂, hout₂, htimers₂, hbudget₂,
    hcounts₂, hlabels₂⟩ := plays_worker hc₁ hw₁ hnext rfl h.unended (show 0 < g.budget by omega)
  obtain ⟨g₃, r, hplays₃, hc₃, hw₃, hraces, hdeferred, htimer, hnode₃, hbus₃, htaker, hagenda₃, hout₃,
    htimers₃, hbudget₃, hcounts₃, hlabels₃⟩ := plays_race hc₂ hw₂ (by rw [hagenda₂]; rfl)
      (hkeeps.waits _ _ h.wait rfl) (hkeeps.task _ hnode) hbus₂
      (show 0 < g₂.budget by have : g₂.budget + 1 = g.budget := hbudget₂; omega)
  have hcounts := hcounts₃.trans hcounts₂
  simp only [Prod.mk.injEq] at hcounts
  refine ⟨g₃, t, r, w', k', (hpass.trans hplays₂).trans hplays₃, ?_, ?_, ?_,
    hlabels₃.trans hlabels₂⟩
  · refine ⟨hc₃, hw₃, by rw [hbus₃]; rfl, by rw [htaker]; exact Nat.ne_of_lt (Nat.lt_succ_self _),
      by rw [hbus₃], hagenda₃, hraces, hdeferred, htimer, ⟨env, hnode₃, henv⟩, ?_, ?_, ?_, ?_⟩
    · rw [hout₃, hout₂]
      exact h.live
    · omega
    · rw [List.length_append, List.length_singleton]
      omega
    · omega
  · have : g₂.timers.length = g.timers.length + 1 := htimers₂
    omega
  · have : g₂.budget + 1 = g.budget := hbudget₂
    omega

/-! ## From round to round -/

/-- A worker is to be relieved, or nobody is. -/
inductive Stage.Leaving (g : Stage) (kids : List TaskId) : List TaskId → List Reaction → Prop
  | nobody : g.Leaving kids kids []
  | worker {t : TaskId} {e : EffectId} {env : Env} (mem : t ∈ kids)
      (node : g.engine.tasks.get? t = some (workerNode [.block []] env e))
      (wait : g.engine.waits.get? e = some ⟨t, .task, .put⟩) :
      g.Leaving kids (kids.filter (· ≠ t)) [.settle e (.value .unit)]

theorem Stage.Leaving.apart {stack : List Reaction} (h : g.Leaving kids crew stack)
    (ha : g.Apart g' 2) (hk : ∀ t ∈ kids, 2 < t) : g'.Leaving kids crew stack := by
  cases h with
  | nobody => exact .nobody
  | worker mem node wait =>
    have hne := Nat.ne_of_gt (hk _ mem)
    exact .worker mem (ha.tasks _ _ node hne) (ha.waits _ _ wait hne)

theorem Stage.Leaving.relief {stack : List Reaction} {errands : List Errand}
    (h : g.Leaving kids crew stack) (hc : g.Company kids crew spare) (hw : g.Watched p kids own)
    (ha : g.engine.agenda = { stack, errands }) :
    ∃ k ≤ 13 * stack.length, ∃ g', Plays p k g [.drain 0] g' [.drain 0] ∧
      g'.Company crew crew spare ∧ g'.Watched p crew own ∧ g.Relieves g' ∧
      g'.engine.agenda = { errands } := by
  cases h with
  | nobody =>
    exact ⟨0, Nat.le_refl _, g, .refl _ _, hc, hw,
      ⟨⟨fun _ hn => hn, fun _ _ hw _ => hw⟩, id, rfl, rfl, rfl, rfl, rfl, rfl⟩, ha⟩
  | worker mem node wait => exact plays_relief hc hw mem (by rw [ha]; rfl) wait node

/-- The pinger within its step. -/
def runningNode (pending : Option EffectId) : TaskNode :=
  { name := "pinger", parent := none, detached := false, status := .running, body := none, pending }

/-- The pinger is between two rounds, with `left` rounds to come and `a` rounds answered. -/
structure Stage.Turning (p : Session) (left a : Nat) (kids crew : List TaskId)
    (stack : List Reaction) (w : EffectId) (k : TakerId) (g : Stage) : Prop where
  company : g.Company kids crew []
  watched : g.Watched p kids [⟨k, 1, .type "PING", w⟩]
  takers : g.engine.bus.takers = [⟨k, 1, .type "PING", w⟩]
  unended : g.engine.bus.watermark = none
  agenda : g.engine.agenda = { stack }
  leaving : g.Leaving kids crew stack
  node : ∃ e, g.engine.tasks.get? 2 = some (runningNode e)
  live : g.engine.outcomes.get? 2 = none
  pings : g.pings + left = p.rounds
  pongs : g.pongs + crew.length = g.pings
  timeouts : g.timeouts + a = g.pings

/-- The pinger starts its next round. -/
theorem Stage.Turning.begin {a : Nat} {stack : List Reaction} {w : EffectId} {k : TakerId}
    (h : g.Turning p (left + 1) a kids crew stack w k) (hp : p.rounds ≤ maxRounds)
    (hb : 5 ≤ g.budget) (henv : env.get? "answered" = some (.ofInt a)) :
    ∃ l ≤ 47 + 13 * stack.length, ∃ g' t r w' k', Plays p l g
        [.advance ⟨0, 2⟩ { control := loopControl p (left + 1), env } {}, .drain 0] g' [] ∧
      g'.Racing p left a (crew ++ [t]) r w' k' ∧ g'.timers.length = g.timers.length + 2 ∧
      g'.budget + 5 = g.budget ∧ g'.labels = g.labels ∧ g'.engine.driving = false := by
  have hpings := h.pings
  have hpongs := h.pongs
  have htimeouts := h.timeouts
  obtain ⟨e, hnode⟩ := h.node
  have htwo : 2 ∉ crew := by
    intro hm
    exact absurd (h.company.above 2 (h.company.sub 2 hm)) (by decide)
  -- the pinger sends its PING
  obtain ⟨env', henv', hpinging⟩ := plays_pinging (p := p) left
    (isLive_of hnode rfl) (by omega) henv
  let g₁ := g.pinging p left env'
  have hapart : g.Apart g₁ 2 := .pinging h.company.numbered
  have hcontains (u : TaskId) (hu : g₁.engine.tasks.contains u = true) :
      g.engine.tasks.contains u = true := by
    simpa [g₁, Table.contains_modify] using hu
  have hagenda₁ : g₁.engine.agenda =
      { stack, errands := [.dispatch (roundAction "PING" env') (some g.engine.nextEffect)] } := by
    simp [g₁, h.agenda, Agenda.queue]
  -- a worker may be relieved
  obtain ⟨l, hl, g₂, hrelief, hc₂, hw₂, hrelieves, hagenda₂⟩ :=
    (h.leaving.apart hapart h.company.above).relief (p := p)
      (h.company.apart hapart h.company.numbered.pinging htwo rfl rfl hcontains)
      (h.watched.apart hapart (by decide) (hcontains 1) rfl) hagenda₁
  have hcounts := hrelieves.counts
  simp only [Prod.mk.injEq] at hcounts
  obtain ⟨hi, ho, ht⟩ := hcounts
  have hsending : g₂.Sending p left a crew g.engine.nextEffect (roundAction "PING" env') w k := by
    refine ⟨hc₂, hw₂, by rw [hrelieves.bus]; exact h.takers, by rw [hrelieves.bus]; exact h.unended,
      hagenda₂, rfl, hrelieves.keeps.waits _ _ (by simp [g₁]) rfl, ⟨env', ?_, henv'⟩,
      hrelieves.outcome.trans h.live, ?_, ?_, ?_⟩
    · exact hrelieves.keeps.task _ (by simp [g₁, hnode, runningNode, pingerNode])
    · rw [hi]
      exact h.pings
    · rw [hi, ho]
      exact h.pongs
    · rw [hi, ht]
      exact h.timeouts
  have hbudget : g₂.budget + 3 = g.budget := by
    rw [hrelieves.budget]
    show g.budget - 1 - 1 - 1 + 3 = _
    omega
  -- the PING is seen
  obtain ⟨g₃, t, r, w', k', hping, hracing, htimers, hbudget₃, hlabels⟩ :=
    hsending.ping hp (by omega)
  refine ⟨7 + l + 39 + 1, by omega, g₃.idle, t, r, w', k',
    (((hpinging.below _).trans hrelief).trans hping).trans (plays_idle hracing.agenda),
    hracing.around .., ?_, ?_, hlabels.trans hrelieves.labels, rfl⟩
  · show g₃.timers.length = _
    rw [htimers, hrelieves.timers]
    rfl
  · show g₃.budget + 5 = _
    omega

/-- The pinger is done after its last round. -/
theorem Stage.Turning.finish {a : Nat} {stack : List Reaction} {w : EffectId} {k : TakerId}
    (h : g.Turning p 0 a kids crew stack w k) (hb : 0 < g.budget)
    (henv : env.get? "answered" = some (.ofInt a)) :
    ∃ l ≤ 10 + 13 * stack.length, ∃ g', Plays p l g
        [.advance ⟨0, 2⟩ { control := loopControl p 0, env } {}, .drain 0] g' [] ∧
      g'.Over p a crew [⟨k, 1, .type "PING", w⟩] ∧ g'.timers = g.timers ∧
      g'.budget + 1 = g.budget ∧ g'.labels = g.labels ∧ g'.engine.driving = false := by
  have hpings := h.pings
  have hpongs := h.pongs
  have htimeouts := h.timeouts
  obtain ⟨e, hnode⟩ := h.node
  have htwo : 2 ∉ crew := by
    intro hm
    exact absurd (h.company.above 2 (h.company.sub 2 hm)) (by decide)
  have hfinished := plays_finished (p := p) hnode rfl rfl rfl rfl hb henv
  let g₁ := g.finished (.ofInt a)
  have hapart : g.Apart g₁ 2 := .finished
  have hcontains (u : TaskId) (hu : g₁.engine.tasks.contains u = true) :
      g.engine.tasks.contains u = true := by
    have hu' := hu
    simp only [g₁, Stage.finished, Stage.retire, Stage.endTurn, Stage.spend, Stage.setEngine,
      Table.contains_erase, Bool.and_eq_true] at hu'
    exact hu'.2
  have hgone : g₁.engine.tasks.contains 2 = false := by
    simp [g₁, Table.contains_erase]
  obtain ⟨l, hl, g₂, hrelief, hc₂, hw₂, hrelieves, hagenda₂⟩ :=
    (h.leaving.apart hapart h.company.above).relief (p := p)
      (h.company.apart hapart h.company.numbered.finished htwo rfl rfl hcontains)
      (h.watched.apart hapart (by decide) (hcontains 1) (by simp [g₁])) h.agenda
  have hcounts := hrelieves.counts
  simp only [Prod.mk.injEq] at hcounts
  obtain ⟨hi, ho, ht⟩ := hcounts
  refine ⟨9 + l + 1, by omega, g₂.idle,
    ((hfinished.below _).trans hrelief).trans (plays_idle hagenda₂), ?_, hrelieves.timers, ?_,
    hrelieves.labels, rfl⟩
  · refine ⟨hc₂.around .., hw₂.around .., ?_, hagenda₂, ?_, hrelieves.outcome.trans (by simp [g₁]), ?_, ?_, ?_⟩
    · show g₂.engine.bus.takers = _
      rw [hrelieves.bus]
      exact h.takers
    · cases hx : g₂.idle.engine.tasks.contains 2 with
      | false => rfl
      | true => exact absurd (hrelieves.contains hx) (by rw [hgone]; decide)
    · show g₂.pings = _
      rw [hi]
      exact h.pings
    · show g₂.pongs + _ = _
      rw [ho]
      exact h.pongs.trans h.pings
    · show g₂.timeouts + _ = _
      rw [ht]
      exact h.timeouts.trans h.pings
  · show g₂.budget + 1 = _
    rw [hrelieves.budget]
    show g.budget - 1 + 1 = _
    omega

/--
The session between two settings of the clock: a race, or the time after the last round; with how many
timers are still to be fired, at most.
-/
inductive Stage.Standing (p : Session) (g : Stage) : Nat → Prop
  | racing {left a : Nat} {crew : List TaskId} {r : RaceIds} {w : EffectId} {k : TakerId}
      (h : g.Racing p left a crew r w k) : g.Standing p (2 * left + g.timers.length)
  | ended {a : Nat} {crew : List TaskId} {w : EffectId} {k : TakerId}
      (h : g.Over p a crew [⟨k, 1, .type "PING", w⟩]) : g.Standing p g.timers.length

theorem Stage.Standing.around {work : Nat} (h : g.Standing p work) (driving : Bool) (now : Nat)
    (labels : Table String TaskRef) (reply : Option Reply) (budget : Nat) :
    (g.around driving now labels reply budget).Standing p work := by
  cases h with
  | racing h => exact .racing (h.around driving now labels reply budget)
  | ended h => exact .ended (h.around driving now labels reply budget)

/-- The pinger goes on: it starts its next round, or is done. -/
theorem Stage.Turning.turn {a : Nat} {stack : List Reaction} {w : EffectId} {k : TakerId}
    (h : g.Turning p left a kids crew stack w k) (hp : p.rounds ≤ maxRounds)
    (hb : 5 ≤ g.budget) (henv : env.get? "answered" = some (.ofInt a)) :
    ∃ l ≤ 47 + 13 * stack.length, ∃ g', Plays p l g
        [.advance ⟨0, 2⟩ { control := loopControl p left, env } {}, .drain 0] g' [] ∧
      g'.Standing p (2 * left + g.timers.length) ∧ g.budget ≤ g'.budget + 5 ∧
      g'.labels = g.labels ∧ g'.engine.driving = false := by
  cases left with
  | zero =>
    obtain ⟨l, hl, g', hplays, hover, htimers, hbudget, hlabels, hdriving⟩ :=
      h.finish (by omega) henv
    refine ⟨l, by omega, g', hplays, ?_, by omega, hlabels, hdriving⟩
    rw [Nat.mul_zero, Nat.zero_add, ← htimers]
    exact .ended hover
  | succ left =>
    obtain ⟨l, hl, g', t, r, w', k', hplays, hracing, htimers, hbudget, hlabels, hdriving⟩ :=
      h.begin hp hb henv
    refine ⟨l, by omega, g', hplays, ?_, by omega, hlabels, hdriving⟩
    have hwork : 2 * (left + 1) + g.timers.length = 2 * left + g'.timers.length := by omega
    rw [hwork]
    exact .racing hracing

/-! ## A round ends -/

/-- The pinger has its PONG. -/
theorem Stage.Racing.answer {a : Nat} {w : EffectId} {k : TakerId}
    (h : g.Racing p left a crew r w k) (hp : p.rounds ≤ maxRounds)
    (hdue : (g.world p []).dueTimer? target = some tm) (hdriving : g.engine.driving = false)
    (hb : 3 ≤ g.budget) (ht : t ∈ crew) (hnap : g.Naps t e tm.id) :
    ∃ g' stack env', Plays p 21 g [.moveClock target] g'
        [.advance ⟨0, 2⟩ { control := loopControl p left, env := env' } {}, .drain 0,
          .moveClock target] ∧
      stack.length = 1 ∧ env'.get? "answered" = some (.ofInt (a + 1 : Nat)) ∧
      g'.Turning p left (a + 1) crew (crew.filter (· ≠ t)) stack w k ∧
      g'.timers.length + 2 ≤ g.timers.length ∧ g'.budget + 3 = g.budget ∧
      g'.labels = g.labels := by
  have hpings := h.pings
  have hpongs := h.pongs
  have htimeouts := h.timeouts
  have hlength := length_filter_ne h.company.nodup ht
  have hne : 1 ≠ t ∧ 2 ≠ t := by
    have := h.company.above t ht
    constructor <;> rintro rfl <;> exact absurd this (by decide)
  have htwo : 2 ∉ crew := fun hm => absurd (h.company.above 2 hm) (by decide)
  obtain ⟨env₀, hnode₀⟩ := hnap.task
  obtain ⟨env, hnode, henv⟩ := h.node
  have hselect : Bus.select (.action (pongOf env₀)) [] [⟨r.taker, 2, .type "PONG", r.take⟩] =
      ⟨[⟨r.taker, 2, .type "PONG", r.take⟩], [], []⟩ := by
    simp [Bus.select, Pattern.accepts, Pattern.notes, Value.kind?, pongOf, World.evalAction]
  -- the worker sends its PONG
  obtain ⟨g₁, e₁, hplays₁, hc₁, hw₁, hapart₁, hnode₁, hwait₁, hcontains₁, hagenda₁, hbus₁, hout₁,
    htimers₁, hm, hbudget₁, hcounts₁, hlabels₁⟩ := plays_answer_timer h.company h.watched ht
    hnap hnode₀ hdue hdriving h.agenda (by omega) (by omega) (by omega) (by omega) h.takers hselect
  have hkeeps₁ : g.Keeps g₁ 2 := hapart₁.keeps hne.2
  have hraces₁ : g₁.Races 2 ["pong", "timeout"] r := hkeeps₁.races h.races
  have hdeferred₁ : g₁.deferreds.get? r.timer =
      some { timer := some r.timer, listener := some ⟨0, r.delay⟩ } :=
    hapart₁.deferreds _ _ _ h.deferred h.races.delay hne.2
  have hnode₂ := hkeeps₁.task _ hnode
  -- the pinger counts it
  have hnext₁ : g₁.engine.agenda.next? =
      some (.reaction (.settle r.take (.value (.action (pongOf env₀)))),
        { stack := [.settle e₁ (.value .unit)] }) := by
    rw [hagenda₁]
    rfl
  obtain ⟨env', henv', hcounting⟩ := plays_counting (p := p) (g := g₁) (m := a) hnext₁ hraces₁ hdeferred₁ hnode₂ (by omega) henv (by omega)
  let g₂ := g₁.counting { stack := [.settle e₁ (.value .unit)] } r
  have hapart₂ : g₁.Apart g₂ 2 := .counting hraces₁ hdeferred₁
  have hcontains₂ (u : TaskId) (hu : g₂.engine.tasks.contains u = true) :
      g₁.engine.tasks.contains u = true := by
    simpa [g₂, Table.contains_modify] using hu
  have hc₂ : g₂.Company crew (crew.filter (· ≠ t)) [] := by
    refine hc₁.without (fun u hu e d _ hn => hapart₂.naps ?_ hn)
      (fun u _ e => hraces₁.not_naps hdeferred₁) hc₁.numbered.counting rfl rfl hcontains₂
    rintro rfl
    exact htwo (List.mem_filter.1 hu).1
  have hkeeps₂ : g₁.Keeps g₂ t := hapart₂.keeps hne.2.symm
  simp only [Prod.mk.injEq] at hcounts₁
  obtain ⟨hi, ho, ht'⟩ := hcounts₁
  refine ⟨g₂, [.settle e₁ (.value .unit)], env', hplays₁.trans (hcounting.below _), rfl, henv',
    ⟨hc₂, hw₁.apart hapart₂ (by decide) (hcontains₂ 1) rfl, ?_, ?_, rfl,
      .worker ht (hkeeps₂.task _ hnode₁) (hkeeps₂.waits _ _ hwait₁ rfl), ⟨some r.race, ?_⟩,
      ?_, ?_, ?_, ?_⟩, ?_, ?_, hlabels₁⟩
  · show g₁.engine.bus.takers = _
    rw [hbus₁]
    rfl
  · show g₁.engine.bus.watermark = none
    rw [hbus₁]
    exact h.unended
  · simp [g₂, hnode₂, pingerNode, runningNode]
  · show g₁.engine.outcomes.get? 2 = none
    rw [hout₁]
    exact h.live
  · show g₁.pings + left = _
    omega
  · show g₁.pongs + _ = g₁.pings
    omega
  · show g₁.timeouts + (a + 1) = g₁.pings
    omega
  · -- the timer of the worker is gone, and so is that of the race
    obtain ⟨tm', hm', hid⟩ := h.timer
    have hother : tm'.id ≠ tm.id := by
      intro he
      exact h.races.not_naps h.deferred (hid ▸ he ▸ hnap)
    have hfirst : (g.timers.filter fun u => u.id ≠ tm.id).length < g.timers.length :=
      List.length_filter_lt_length_iff_exists.2 ⟨tm, hm, by simp⟩
    have hsecond : (g₁.timers.filter fun u => u.id ≠ r.timer).length < g₁.timers.length :=
      List.length_filter_lt_length_iff_exists.2
        ⟨tm', by rw [htimers₁]; exact List.mem_filter.2 ⟨hm', by simpa using hother⟩, by simp [hid]⟩
    rw [← htimers₁] at hfirst
    show (g₁.timers.filter fun u => u.id ≠ r.timer).length + 2 ≤ _
    omega
  · show g₁.budget - 1 - 1 + 3 = _
    omega

/-- The time of a round is up. -/
theorem Stage.Racing.timeout {a : Nat} {w : EffectId} {k : TakerId}
    (h : g.Racing p left a crew r w k) (hp : p.rounds ≤ maxRounds)
    (hdue : (g.world p []).dueTimer? target = some tm) (hdriving : g.engine.driving = false)
    (hb : 2 ≤ g.budget) (hid : tm.id = r.timer) :
    ∃ g' env', Plays p 20 g [.moveClock target] g'
        [.advance ⟨0, 2⟩ { control := loopControl p left, env := env' } {}, .drain 0,
          .moveClock target] ∧
      env'.get? "answered" = some (.ofInt a) ∧ g'.Turning p left a crew crew [] w k ∧
      g'.timers.length < g.timers.length ∧ g'.budget + 2 = g.budget ∧ g'.labels = g.labels := by
  have hpings := h.pings
  have hpongs := h.pongs
  have htimeouts := h.timeouts
  have htwo : 2 ∉ crew := fun hm => absurd (h.company.above 2 hm) (by decide)
  obtain ⟨env, hnode, henv⟩ := h.node
  obtain ⟨hm, hdef, hans, -⟩ := h.company.due_cases hdue
  have hdef : tm.deferred = r.timer := hdef.trans hid
  -- the timer of the race fires
  let g₁ := g.fire tm r.delay
  have hfire := plays_fire (p := p) hdue hans (by rw [hdef]; exact h.deferred) rfl rfl hdriving
  have hnumbered₁ : g₁.Numbered :=
    h.company.numbered.fire (Table.contains_of_get? (hdef ▸ h.deferred))
  have hc₁ : g₁.Company crew crew [] :=
    h.company.without (fun u _ e' d hne hn => hn.fire (hdef ▸ hne))
      (fun u _ e' => h.races.not_naps h.deferred) hnumbered₁ (by rw [← hid]; rfl) rfl fun _ hu => hu
  have hw₁ : g₁.Watched p crew [⟨k, 1, .type "PING", w⟩] := Stage.Watched.fire h.watched
  have hraces₁ : g₁.Races 2 ["pong", "timeout"] r := ⟨h.races.race, h.races.take, h.races.delay⟩
  have hagenda₁ : g₁.engine.agenda.next? =
      some (.reaction (.settle r.delay (.value .unit)), {}) := by
    show (g.engine.agenda.schedule _).next? = _
    rw [h.agenda]
    rfl
  -- the pinger reports it
  obtain ⟨env', henv', hreporting⟩ :=
    plays_reporting (p := p) (g := g₁) hagenda₁ hraces₁ hnode (show 1 < g.budget by omega) henv
  let g₂ := g₁.reporting p {} r left env'
  have hapart₂ : g₁.Apart g₂ 2 := .reporting hnumbered₁ hraces₁
  have hcontains₂ (u : TaskId) (hu : g₂.engine.tasks.contains u = true) :
      g₁.engine.tasks.contains u = true := by
    simpa [g₂, Table.contains_modify] using hu
  have hc₂ : g₂.Company crew crew [] :=
    hc₁.apart hapart₂ hc₁.numbered.reporting htwo rfl rfl hcontains₂
  have hw₂ := hw₁.apart hapart₂ (by decide) (hcontains₂ 1) rfl
  have htakers₂ : g₂.engine.bus.takers = [⟨k, 1, .type "PING", w⟩] := by
    show g.engine.bus.takers.filter _ = _
    rw [h.takers]
    simp [h.taker_ne]
  have hnode₂ : g₂.engine.tasks.get? 2 =
      some (pingerNode (reportedControl p left) env' none g.engine.nextEffect) := by
    simp [g₂, g₁, hnode, pingerNode]
  have hwait₂ : g₂.engine.waits.get? g.engine.nextEffect = some ⟨2, .task, .put⟩ := by
    simp [g₂, g₁]
  -- the host sees the TIMEOUT
  let timeout := roundAction "TIMEOUT" env'
  let g₃ := g₂.passed {} timeout g.engine.nextEffect [] [⟨k, 1, .type "PING", w⟩]
  have hpassed : Plays p 5 g₂ [.drain 0] g₃ [.drain 0] := by
    refine plays_passed rfl (Or.inr (Or.inr rfl)) ?_ ?_ ?_ ?_
    · show g.pings ≤ _
      omega
    · show g.pongs ≤ _
      omega
    · show g.timeouts ≤ _
      omega
    · show Bus.select _ [] g₂.engine.bus.takers = _
      rw [htakers₂]
      rfl
  -- the pinger goes on
  let g₄ := g₃.reported {} g.engine.nextEffect
  have hreported : Plays p 5 g₃ [.drain 0] g₄
      [.advance ⟨0, 2⟩ { control := loopControl p left, env := env' } {}, .drain 0] :=
    plays_reported rfl hwait₂ hnode₂
  have hapart₃ : g₂.Apart g₃ 2 := .passed
  have hapart₄ : g₃.Apart g₄ 2 := .reported hwait₂
  have hcontains₄ (u : TaskId) (hu : g₄.engine.tasks.contains u = true) :
      g₃.engine.tasks.contains u = true := by
    simpa [g₄, Table.contains_modify] using hu
  have hc₃ : g₃.Company crew crew [] :=
    hc₂.apart hapart₃ hc₂.numbered.passed htwo rfl rfl fun _ hu => hu
  have hw₃ := hw₂.apart hapart₃ (by decide) (fun hu => hu) rfl
  refine ⟨g₄, env', (hfire.trans ((hreporting.trans (hpassed.trans hreported)).below _)), henv',
    ⟨hc₃.apart hapart₄ hc₃.numbered.reported htwo rfl rfl hcontains₄,
      hw₃.apart hapart₄ (by decide) (hcontains₄ 1) rfl, rfl, h.unended, rfl, .nobody,
      ⟨some g.engine.nextEffect, ?_⟩, h.live, hpings, ?_, ?_⟩, ?_, ?_, rfl⟩
  · have hnode₃ : g₃.engine.tasks.get? 2 = _ := hnode₂
    simp [g₄, hnode₃, pingerNode, runningNode]
  · exact hpongs
  · show g.timeouts + 1 + a = g.pings
    omega
  · show (g.timers.filter fun u => u.id ≠ tm.id).length < _
    exact List.length_filter_lt_length_iff_exists.2 ⟨tm, hm, by simp⟩
  · show g.budget - 1 - 1 + 2 = _
    omega

end Session

end SagaMachine
