import SagaMachine.Proofs.Holdings
import SagaMachine.Proofs.Lifetimes

/-!
# The end of the bus

An end of the bus sets a mark at the tasks created so far. The marks never go down, so whoever has
seen an end sees it at every later take. Ends are carried out when no reaction is left, so no action
is on its way then to a take from the bus, and none comes to the takes below the mark any more.

Main statements: `Scenario.Visits.tidal`, `Scenario.Visits.afloat`.
-/

namespace SagaMachine

section

variable {s : Scenario} {c c' next : Config} {w w' : World} {x : Instr} {F rest : List Instr}
  {i : MiddlewareId} {r : EffectRef} {t : TaskId} {p : Pattern} {signal : Signal}

/-! ## Marks -/

/-- The marks that the ends of the bus have set, the latest one first. -/
def World.marks (w : World) (i : MiddlewareId) : List TaskId := (w.past i).filterMap Event.mark?

theorem World.mem_marks {m : TaskId} : m ∈ w.marks i ↔ .busEnded m ∈ w.past i := by
  simp only [marks, List.mem_filterMap]
  refine ⟨fun ⟨e, he, hm⟩ => ?_, fun h => ⟨_, h, rfl⟩⟩
  cases e with
  | busEnded => cases hm; exact he
  | _ => cases hm

/-- The mark never goes down, and the watermark is the one that was set last. -/
structure World.Tidal (w : World) (i : MiddlewareId) : Prop where
  watermark : (w.engine i).bus.watermark = (w.marks i).head?
  sorted : (w.marks i).Pairwise (· ≥ ·)
  bounded : ∀ m ∈ w.marks i, m ≤ (w.engine i).nextTask

theorem World.Tidal.same (h : w.Tidal i) (ht : w.SameTide i w')
    (hn : (w.engine i).nextTask ≤ (w'.engine i).nextTask) : w'.Tidal i := by
  have hm : w'.marks i = w.marks i := ht.marks
  constructor
  · exact (ht.watermark.trans h.watermark).trans (congrArg _ hm.symm)
  · exact hm ▸ h.sorted
  · rw [hm]
    exact fun m hm => (h.bounded m hm).trans hn

theorem Scenario.Visits.tidal (h : s.Visits c) (ha : c.world.Alive i) : c.world.Tidal i := by
  induction h with
  | @start w h =>
    have hfresh := Scenario.setUp_fresh h
    have hm : w.marks i = [] := by simp [World.marks, World.past, hfresh.journal]
    refine ⟨?_, ?_, ?_⟩ <;> simp [hm, hfresh.engine i]
  | call h _ _ ih =>
    have htidal := ih ha
    exact ⟨htidal.watermark, htidal.sorted, htidal.bounded⟩
  | @step c c' h hc ih =>
    have hi := (h.knows.has_iff hc i).1 ha.has
    have ha₀ := h.alive_of_step hi hc ha
    have htidal := ih ha₀
    obtain ⟨es, -, hmat⟩ := h.matures hi hc ha
    have hnext : (c.world.engine i).nextTask ≤ (c'.world.engine i).nextTask := hmat.number
    obtain ⟨x, rest, -, henlists⟩ := h.enlists hi hc
    cases henlists with
    | none _ _ tide | one _ _ tide => exact htidal.same tide hnext
    | ends _ _ _ _ watermark marks =>
      have hm : c'.world.marks i = (c.world.engine i).nextTask :: c.world.marks i := marks
      constructor
      · rw [hm]
        exact watermark
      · rw [hm]
        exact List.pairwise_cons.2 ⟨htidal.bounded, htidal.sorted⟩
      · rw [hm, List.forall_mem_cons]
        exact ⟨hnext, fun m hm => (htidal.bounded m hm).trans hnext⟩
    | drops gone => exact absurd ha gone

/-- A task has seen the end if its number is below some mark. -/
theorem World.Tidal.hasEnded_iff (h : w.Tidal i) :
    (w.engine i).bus.hasEnded t = true ↔ ∃ m ∈ w.marks i, t < m := by
  unfold Bus.hasEnded
  rw [h.watermark]
  cases hm : w.marks i with
  | nil => simp
  | cons m ms =>
    have hs := List.pairwise_cons.1 (hm ▸ h.sorted)
    simp only [List.head?_cons, decide_eq_true_eq, List.mem_cons, exists_eq_or_imp]
    exact ⟨Or.inl, fun h => h.elim id fun ⟨m', hm', hlt⟩ => hlt.trans_le (hs.1 m' hm')⟩

/-! ## Ends are carried out when no reaction is left -/

/-- An errand is carried out when no reaction is left. -/
def View.Unhurried (i : MiddlewareId) (v : View) : Prop :=
  ∀ e, .perform i (.errand e) ∈ v.frames → v.core.agenda.stack = [] ∧ v.core.agenda.fresh = []

/-- The driver takes an errand when no reaction is left. -/
theorem Does.unhurried {k k' : Core} {G : List Instr} {D : List TaskId} {past es : List Event}
    (h : Does i past x k k' G D es) {e : Errand} (hm : .perform i (.errand e) ∈ G) :
    k'.agenda.stack = [] ∧ k'.agenda.fresh = [] := by
  cases h with
  | next h =>
    rcases Agenda.next?_cases h with ⟨r, rest, -, rfl, -⟩ | ⟨e, es, -, -, rfl, rfl⟩
    · simp at hm
    · exact ⟨rfl, rfl⟩
  | start h | resume h | wake _ _ h => cases h <;> simp at hm
  | errand hG =>
    rcases hG with rfl | ⟨g, rfl, hg⟩
    · exact absurd hm List.not_mem_nil
    · rw [List.mem_singleton] at hm
      subst hm
      exact hg.elim
  | @poll _ _ _ _ g hg | @advance _ _ _ _ g hg =>
    rw [List.mem_singleton] at hm
    subst hm
    exact hg.elim
  | _ => simp at hm

theorem Intervenes.not_errand {k k' : Core} {G : List Instr} {past es : List Event}
    (h : Intervenes i past k k' G es) (e : Errand) : .perform i (.errand e) ∉ G := by
  cases h with
  | spawns h | settles _ h | cancels h => cases h <;> simp
  | _ => simp

theorem View.Unhurried.move {v v' : View} (hv : v.Unhurried i) (h : Moves i v v') :
    v'.Unhurried i := by
  cases h with
  | does h hu =>
    intro e hm
    rcases List.mem_append.1 hm with hm | hm
    · exact h.unhurried hm
    · exact absurd trivial (hu _ hm)
  | intervenes h hu =>
    intro e hm
    rcases List.mem_append.1 hm with hm | hm
    · exact absurd hm (h.not_errand e)
    · exact absurd trivial (hu _ hm)
  | still => exact hv
  | drops => exact hv
  | dies => exact fun e hm => absurd hm List.not_mem_nil

/-- No reaction is left where the bus ends. -/
theorem Scenario.Visits.pending_of_ends (h : s.Visits ⟨x :: rest, w⟩) (hi : w.Has i)
    (hx : x.EndsBus i) (idle : x.owner? = none → (w.engine i).driving = false) :
    w.pending i = [] ∧ ∀ y ∈ framesOf i rest, y = .drain i := by
  have hs := (h.sound hi).framed
  cases x with
  | perform j job =>
    cases job with
    | reaction => exact hx.elim
    | errand e =>
      cases e with
      | finish =>
        cases hx
        have hF : framesOf i (.perform i (.errand .finish) :: rest) =
            .perform i (.errand .finish) :: framesOf i rest := by simp [framesOf, Instr.owner?]
        have hstack : Stack i (w.core i).current (.perform i (.errand .finish) :: framesOf i rest) :=
          hF ▸ hs.stack
        obtain ⟨hst, hfr⟩ := h.invariant (P := View.Unhurried i)
          (fun e hm => absurd hm List.not_mem_nil) View.Unhurried.move hi .finish
          (by simp [Config.view, hF])
        have hst : (w.engine i).agenda.stack = [] := hst
        have hfr : (w.engine i).agenda.fresh = [] := hfr
        exact ⟨by simp [World.pending, hst, hfr], by simp [(hstack.of_works trivial).2]⟩
      | _ => exact hx.elim
  | op site env o =>
    have hd : (w.engine i).driving = false := idle rfl
    have hF : framesOf i (.op site env o :: rest) = [] := by
      by_contra hF
      exact Bool.noConfusion (hd.symm.trans (hs.driving.2 hF))
    have ha : (w.engine i).agenda = {} := hs.idle hF
    refine ⟨by simp [World.pending, ha], ?_⟩
    rw [framesOf_cons, if_neg (by simp [Instr.owner?])] at hF
    simp [hF]
  | _ => exact hx.elim

/-! ## What is on its way to a take from the bus -/

/-- A take from the bus is registered with the bus at most. -/
theorem Scenario.Visits.unlisted_busTake (h : s.Visits c) (ha : c.world.Alive r.mw)
    (hr : c.world.TakesFrom r .bus p) : c.world.Unlisted (fun k => ∃ id, k = .take .bus id) r :=
  h.unlisted_take ha hr

/-- Nothing is delivered where an effect is settled. -/
theorem World.not_deliver_beginTurn {expected : Option EffectId} {signal : Option Signal}
    {sink : Sink} {d : Delivery} : .deliver sink d ∉ (w.beginTurn i t expected signal).todo := by
  unfold World.beginTurn
  repeat' split
  all_goals simp

theorem World.not_deliver_finishEmit {a : Action} {sender : Sender} {result : Except Fault Unit}
    {sink : Sink} {d : Delivery} : .deliver sink d ∉ (w.finishEmit i a sender result).todo := by
  unfold World.finishEmit
  repeat' split
  all_goals simp

/-- Nothing is delivered where actions are broadcast, or the bus ends. -/
theorem Instr.not_deliver_of_stirs (hx : x.Stirs (fun k => ∃ id, k = .take .bus id) i w)
    (hn : x.exec w = some next) {sink : Sink} {d : Delivery} : .deliver sink d ∉ next.todo := by
  cases x with
  | forwarded j a sender =>
    cases hn
    unfold World.execForwarded
    split
    · simp
    · split <;> exact World.not_deliver_finishEmit
  | perform j job =>
    cases job with
    | reaction => exact hx.elim
    | errand e =>
      cases e with
      | finish =>
        cases hn
        simp [World.execPerform]
      | put =>
        obtain ⟨id, id', hid⟩ := hx
        cases hid
      | dispatch => exact hx.elim
  | op site env o =>
    obtain ⟨w', -, rfl⟩ := Option.map_eq_some_iff.1 hn
    cases o with
    | finish j =>
      simp only [World.runOp, World.withMiddleware, World.opFinish, World.enterDriver]
      repeat' split
      all_goals simp [World.answerOp, Config.followedBy]
    | put | close =>
      obtain ⟨c, id, -, id', hid⟩ := hx
      cases hid
    | resolve | reject =>
      obtain ⟨d, id, hid⟩ := hx
      cases hid
    | _ => exact hx.elim
  | abortDone | conclude | cancelOne =>
    obtain ⟨-, id, hid⟩ := hx
    cases hid
  | cascade j c =>
    cases c with
    | abort => exact hx.elim
    | complete =>
      obtain ⟨-, id, hid⟩ := hx
      cases hid
  | moveClock =>
    obtain ⟨d, id, hid⟩ := hx
    cases hid
  | _ => exact hx.elim

/-- Nothing is ever delivered to a take from the bus: its settlement is scheduled. -/
theorem Scenario.Visits.not_delivered (h : s.Visits c) (ha : c.world.Alive r.mw)
    (hr : c.world.TakesFrom r .bus p) : ∀ d, .deliver (.effect r) d ∉ c.todo := by
  induction h with
  | start => exact fun _ => List.not_mem_nil
  | call => simp
  | @step c c' h hc ih =>
    obtain ⟨todo, w⟩ := c
    have hi := (h.knows.has_iff hc r.mw).1 hr.has
    have ha₀ : w.Alive r.mw := h.alive_of_step hi hc ha
    cases todo with
    | nil => cases hc
    | cons x rest =>
      intro d hm
      by_cases hr₀ : w.TakesFrom r .bus p
      · have hl := h.unlisted_busTake ha₀ hr₀
        have ih := ih ha₀ hr₀
        obtain ⟨next, hn, rfl⟩ := Option.map_eq_some_iff.1 hc
        rcases List.mem_append.1 hm with hm | hm
        · by_cases hs : x.Settles r
          · obtain ⟨signal, hb⟩ := h.brings_of_settles hr₀ trivial List.mem_cons_self hs
            cases x with
            | perform j job =>
              cases job with
              | reaction y =>
                cases y with
                | settle =>
                  cases hn
                  simp only [World.execPerform] at hm
                  split at hm
                  · exact absurd hm List.not_mem_nil
                  · exact World.not_deliver_beginTurn hm
                | _ => exact hb
              | errand => exact hb
            | schedule =>
              cases hn
              exact absurd hm List.not_mem_nil
            | deliver sink d' =>
              cases sink with
              | effect target =>
                obtain ⟨rfl, -⟩ := hb
                exact ih d' List.mem_cons_self
              | script => exact hb
            | _ => exact hb
          · by_cases hK : x.Stirs (fun k => ∃ id, k = .take .bus id) r.mw w
            · exact Instr.not_deliver_of_stirs hK hn hm
            · by_cases hloop : x = .drain r.mw
              · subst hloop
                cases hn
                unfold World.execDrain at hm
                split at hm <;> simp at hm
              · exact (h.mum_issued hn ha hr₀ trivial hl hK hs hloop).mute _ hm rfl
        · exact ih d (List.mem_cons_of_mem _ hm)
      · have hb : c'.Brings r (.ofDelivery d) := Or.inr ⟨_, hm, rfl, rfl⟩
        exact h.not_brings_of_born hc (e := .take .bus p) trivial hr₀ hr hb

/-- A frame of a driver that is between two jobs, or carries out an errand. -/
def Instr.IsErrand (i : MiddlewareId) : Instr → Prop
  | .drain j | .perform j (.errand _) => j = i
  | _ => False

/-- Nothing is on its way to a take from the bus where no reaction is left. -/
theorem Scenario.Visits.not_brings_of_unhurried (h : s.Visits c) (ha : c.world.Alive r.mw)
    (hp : c.world.pending r.mw = []) (hF : ∀ y ∈ framesOf r.mw c.todo, y.IsErrand r.mw)
    (hr : c.world.TakesFrom r .bus p) : ¬ c.Brings r signal := by
  rintro (hb | ⟨y, hy, hb⟩)
  · rw [hp] at hb
    exact absurd hb List.not_mem_nil
  · have hframe (ho : y.owner? = some r.mw) : y.IsErrand r.mw :=
      hF y (List.mem_filter.2 ⟨hy, by simp [ho]⟩)
    cases y with
    | perform j job =>
      cases job with
      | reaction z =>
        cases z with
        | settle =>
          obtain ⟨rfl, -⟩ := hb
          exact hframe rfl
        | _ => exact hb
      | errand => exact hb
    | schedule j z =>
      cases z with
      | settle =>
        obtain ⟨rfl, -⟩ := hb
        exact hframe rfl
      | _ => exact hb
    | deliver sink d =>
      cases sink with
      | effect target =>
        obtain ⟨rfl, -⟩ := hb
        exact h.not_delivered ha hr d hy
      | script => exact hb
    | _ => exact hb

/-- Nothing is on its way to a take from the bus where the bus ends. -/
theorem Scenario.Visits.not_brings_of_ends (h : s.Visits ⟨x :: rest, w⟩) (ha : w.Alive r.mw)
    (hx : x.EndsBus r.mw) (idle : x.owner? = none → (w.engine r.mw).driving = false)
    (hr : w.TakesFrom r .bus p) : ¬ Config.Brings ⟨x :: rest, w⟩ r signal := by
  obtain ⟨hp, hF⟩ := h.pending_of_ends ha.has hx idle
  refine h.not_brings_of_unhurried ha hp (fun y hy => ?_) hr
  obtain ⟨hm, ho⟩ := List.mem_filter.1 hy
  rcases List.mem_cons.1 hm with rfl | hm
  · cases y with
    | perform j job =>
      cases job with
      | reaction => exact hx.elim
      | errand => exact of_decide_eq_true ho |> Option.some.inj
    | op => cases of_decide_eq_true ho
    | _ => exact hx.elim
  · rw [hF y (List.mem_filter.2 ⟨hm, ho⟩)]
    rfl

/-! ## Takes below and above the mark -/

/-- An effect is triggered for a task that has its number. -/
theorem Scenario.Visits.triggered_number (h : s.Visits c) (ha : c.world.Alive i) {y : EffectId}
    {q : Option EffectId} {e : Effect} (hm : .triggered t y q e ∈ c.world.past i) :
    t < (c.world.engine i).nextTask := by
  induction h with
  | start h =>
    simp [World.past, (Scenario.setUp_fresh h).journal] at hm
  | call h _ _ ih => exact ih ha hm
  | @step c c' h hc ih =>
    obtain ⟨todo, w⟩ := c
    have hi := (h.knows.has_iff hc i).1 ha.has
    have ha₀ : w.Alive i := h.alive_of_step hi hc ha
    obtain ⟨es, -, hmat⟩ := h.matures hi hc ha
    have hnext : (w.engine i).nextTask ≤ (c'.world.engine i).nextTask := hmat.number
    by_cases hm₀ : .triggered t y q e ∈ w.past i
    · exact (ih ha₀ hm₀).trans_le hnext
    · cases todo with
      | nil => cases hc
      | cons x rest =>
        obtain ⟨⟨b, nests, rfl⟩, -⟩ := h.trigger_of_event hi hc hm₀ hm
        have hs := h.sound hi
        have hF : (Config.view ⟨.trigger ⟨i, t⟩ b nests e :: rest, w⟩ i).frames =
            .trigger ⟨i, t⟩ b nests e :: framesOf i rest := by
          simp [Config.view, framesOf, Instr.owner?]
        have hcur := hs.framed.stack.turn_unique (hF ▸ List.mem_cons_self)
          (show (Instr.trigger ⟨i, t⟩ b nests e).turn? = some t from rfl)
        exact (hs.orderly.driver hcur).1.1.trans_le hnext

/-- An instruction stirs nobody who is registered nowhere. -/
theorem Instr.not_stirs_of_none : ¬ x.Stirs (fun _ => False) i w := by
  intro h
  unfold Instr.Stirs at h
  split at h <;> simp at h

theorem World.engine_record (j : MiddlewareId) (ev : Event) :
    (w.record j ev).engine i = w.engine i := rfl

theorem World.has_record (j : MiddlewareId) (ev : Event) : (w.record j ev).Has i ↔ w.Has i := Iff.rfl

/-- A take from the bus is started: it is told END at once, or it waits there. -/
theorem World.startTake_ends (hi : w.Has i) (b : Body) (nests : List Nest) (y : EffectId) :
    ((w.engine i).bus.hasEnded t = true ∧
      ((w.startTake ⟨i, t⟩ b nests y .bus p).world.engine i).bus.takers =
        (w.engine i).bus.takers ∧
      (w.startTake ⟨i, t⟩ b nests y .bus p).world.past i = .settled y .ended :: w.past i) ∨
    ((w.engine i).bus.hasEnded t = false ∧
      (w.startTake ⟨i, t⟩ b nests y .bus p).world.past i = w.past i) := by
  cases hended : (w.engine i).bus.hasEnded t with
  | true =>
    have hended' : Bus.hasEnded { w.engine i |>.bus with nextTaker := (w.engine i).bus.nextTaker + 1 }
      t = true := hended
    refine Or.inl ⟨rfl, ?_, ?_⟩
    · simp only [startTake, Bus.take, hended', if_true, immediate]
      rw [World.engine_record, World.engine_setEngine hi]
    · simp only [startTake, Bus.take, hended', if_true, immediate, World.past_record]
      rfl
  | false =>
    have hended' : Bus.hasEnded { w.engine i |>.bus with nextTaker := (w.engine i).bus.nextTaker + 1 }
      t = false := hended
    refine Or.inr ⟨rfl, ?_⟩
    simp only [startTake, Bus.take, hended', Bool.false_eq_true, if_false]
    rfl

theorem World.execTrigger_takeBus (hi : w.Has i) (hl : w.isHalted i t = false) (b : Body)
    (nests : List Nest) : ∃ q,
    ((w.engine i).bus.hasEnded t = true ∧
      ((w.execTrigger ⟨i, t⟩ b nests (.take .bus p)).world.engine i).bus.takers =
        (w.engine i).bus.takers ∧
      (w.execTrigger ⟨i, t⟩ b nests (.take .bus p)).world.past i =
        .settled (w.engine i).nextEffect .ended ::
          .triggered t (w.engine i).nextEffect q (.take .bus p) :: w.past i) ∨
    ((w.engine i).bus.hasEnded t = false ∧
      (w.execTrigger ⟨i, t⟩ b nests (.take .bus p)).world.past i =
        .triggered t (w.engine i).nextEffect q (.take .bus p) :: w.past i) := by
  obtain ⟨w₁, hw₁⟩ : ∃ w₁, w₁ =
    (w.setEngine i fun e => { e with nextEffect := (w.engine i).nextEffect + 1 }).record i
      (.triggered t (w.engine i).nextEffect (Nest.link nests).parent? (.take .bus p)) := ⟨_, rfl⟩
  have hx : w.execTrigger ⟨i, t⟩ b nests (.take .bus p) =
      w₁.startTake ⟨i, t⟩ b nests (w.engine i).nextEffect .bus p := by
    simp only [execTrigger, hl, Bool.false_eq_true, if_false, hw₁]
  have hbus : (w₁.engine i).bus = (w.engine i).bus := by
    rw [hw₁, World.engine_record, World.engine_setEngine hi]
  have hpast : w₁.past i = .triggered t (w.engine i).nextEffect (Nest.link nests).parent?
      (.take .bus p) :: w.past i := by
    rw [hw₁, World.past_record]
    rfl
  have hi₁ : w₁.Has i := by
    rw [hw₁, World.has_record, World.has_setEngine]
    exact hi
  refine ⟨(Nest.link nests).parent?, ?_⟩
  rw [hx, ← hbus, ← hpast]
  exact World.startTake_ends hi₁ b nests _

/-- Marks are set where the bus ends, and nowhere else. -/
theorem Scenario.Visits.marks_step (h : s.Visits ⟨x :: rest, w⟩) (hi : w.Has i)
    (hc : Config.step ⟨x :: rest, w⟩ = some c') : c'.world.marks i = w.marks i ∨
      x.EndsBus i ∧ (x.owner? = none → (w.engine i).driving = false) ∧
        c'.world.marks i = (w.engine i).nextTask :: w.marks i ∧
        (c'.world.engine i).bus.takers = [] := by
  obtain ⟨y, rest', hy, henlists⟩ := h.enlists hi hc
  cases hy
  cases henlists with
  | none _ _ tide | one _ _ tide => exact Or.inl tide.marks
  | ends head idle _ _ _ marks takers => exact Or.inr ⟨head, idle, marks, takers⟩
  | drops _ _ _ marks => exact Or.inl marks

/-- Where the bus ends the mark is set at the tasks created so far. -/
theorem Config.marks_of_ends (hc : Config.step ⟨x :: rest, w⟩ = some c') (ha : w.Alive i)
    (hx : x.EndsBus i) (idle : x.owner? = none → (w.engine i).driving = false) :
    c'.world.marks i = (w.engine i).nextTask :: w.marks i := by
  obtain ⟨next, hn, rfl⟩ := Option.map_eq_some_iff.1 hc
  cases x with
  | perform j job =>
    cases job with
    | reaction => exact hx.elim
    | errand e =>
      cases e with
      | finish =>
        cases hx
        cases hn
        have hbook := World.book_endBus (w := w.record i (.fetched .finish)) ha.has
        rw [World.book_record_unbooked ⟨rfl, rfl, rfl, rfl⟩] at hbook
        exact congrArg Book.marks hbook
      | _ => exact hx.elim
  | op site env o =>
    cases o with
    | finish j =>
      cases hx
      obtain ⟨w', hw', rfl⟩ := Option.map_eq_some_iff.1 hn
      obtain ⟨n, rfl⟩ := World.spend_eq hw'
      obtain ⟨m, hm⟩ := World.living?_of_alive (w := { w with budget := n }) ha
      have hd : (({ w with budget := n } : World).engine i).driving = false := idle rfl
      have hplain : ({ w with budget := n } : World).endBus i |>.Plain
          ((({ w with budget := n } : World).endBus i).enterDriver i []) :=
        .enterDriver (fun _ => rfl) rfl
      have hbook := World.book_endBus (w := { w with budget := n }) ha.has
      simp only [World.runOp, World.withMiddleware, hm, World.opFinish, hd, Bool.false_eq_true,
        if_false]
      exact congrArg Book.marks ((hplain.book i).trans hbook)
    | _ => exact hx.elim
  | _ => exact hx.elim

theorem World.OnBus.registered (h : w.OnBus r) : ∃ id, w.Registered r (.take .bus id) :=
  have ⟨b, hb, he⟩ := h
  ⟨b.id, .bus hb he⟩

theorem World.Registered.onBus {id : TakerId} (h : w.Registered r (.take .bus id)) : w.OnBus r := by
  cases h with
  | bus ht he => exact ⟨_, ht, he⟩

/-- Who is among the takers of the bus was so before, or is triggered just now. -/
theorem Scenario.Visits.onBus_of_step (h : s.Visits ⟨x :: rest, w⟩)
    (hc : Config.step ⟨x :: rest, w⟩ = some c') (ha : c'.world.Alive r.mw)
    (hr : w.TakesFrom r .bus p) (hb : c'.world.OnBus r) : w.OnBus r := by
  have ha₀ := h.alive_of_step hr.has hc ha
  have h' : s.Visits c' := h.step hc
  obtain ⟨id, hreg⟩ := hb.registered
  obtain ⟨u, hclaims'⟩ := (h'.wired.fits ha).backed hreg
  have hclaims := h.claims_of_step hc ha hr trivial hclaims'
  rcases (h.wired.fits ha₀).served (fun d hd => by cases hd) hclaims with hreg₀ | howes
  · exact hreg₀.onBus
  · exfalso
    obtain ⟨signal, hbrings⟩ := h.brings_of_owes hr trivial howes
    have hl : w.Unlisted (fun _ => False) r :=
      .of_silent fun k hk => (h.wired.fits ha₀).silent hk howes
    by_cases hx : ∃ signal, x = .perform r.mw (.reaction (.settle r.effect signal))
    · obtain ⟨signal, rfl⟩ := hx
      exact h'.not_ended_of_claims ha hclaims' (h.ended_of_performed hc hr trivial)
    · have hbrings' := (h.brings_iff hc ha hr trivial hl Instr.not_stirs_of_none
        fun signal hs => hx ⟨signal, hs⟩).2 hbrings
      exact (h'.wired.fits ha).silent hreg hbrings'.owes

/-- A task triggered a take from the bus. -/
def World.BusTake (w : World) (t : TaskId) (r : EffectRef) : Prop :=
  w.Has r.mw ∧ ∃ q p, .triggered t r.effect q (.take .bus p) ∈ w.past r.mw

theorem World.BusTake.takesFrom (h : w.BusTake t r) : ∃ p, w.TakesFrom r .bus p :=
  have ⟨hi, q, p, hm⟩ := h
  ⟨p, hi, t, q, hm⟩

/-- Takes from the bus, and what is on their way to them, keep to the marks. -/
structure Config.Floats (c : Config) (t : TaskId) (r : EffectRef) : Prop where
  onBus : c.world.OnBus r → ∀ m ∈ c.world.marks r.mw, m ≤ t
  action : ∀ {v}, c.Brings r (.value v) → (∃ a, v = .action a) ∧ ∀ m ∈ c.world.marks r.mw, m ≤ t
  ended : c.Brings r .ended → ∃ m ∈ c.world.marks r.mw, t < m
  fault : ∀ {f}, ¬ c.Brings r (.fault f)

/-- Takes from the bus settled with an action before any mark was above their task, or with END. -/
structure World.Lands (w : World) (t : TaskId) (r : EffectRef) : Prop where
  action : ∀ {later v earlier}, w.past r.mw = later ++ .settled r.effect (.value v) :: earlier →
    (∃ a, v = .action a) ∧ ∀ m, .busEnded m ∈ earlier → m ≤ t
  ended : .settled r.effect .ended ∈ w.past r.mw → ∃ m ∈ w.marks r.mw, t < m
  fault : ∀ {f}, .settled r.effect (.fault f) ∉ w.past r.mw

/-- The task that owns a taker of the bus is the one that triggered the take. -/
theorem Scenario.Visits.owner_of_taker (h : s.Visits c) (ha : c.world.Alive i) {b : BusTaker}
    (hb : b ∈ (c.world.engine i).bus.takers) :
    c.world.BusTake b.owner ⟨i, b.effect⟩ := by
  obtain ⟨u, hclaims⟩ := (h.wired.fits (r := ⟨i, b.effect⟩) ha).backed (.bus hb rfl)
  obtain rfl : u = b.owner := h.wired.numbered.owner hb hclaims
  obtain ⟨q, e, hm, he⟩ := h.issued_of_claims ha hclaims
  refine ⟨ha.has, q, ?_⟩
  cases e with
  | take source p =>
    obtain rfl : Source.bus = source := he
    exact ⟨p, hm⟩
  | _ => exact he.elim

/-- What is on its way to a take from the bus, step by step. -/
theorem Config.Floats.step (hF : Config.Floats ⟨x :: rest, w⟩ t r) (h : s.Visits ⟨x :: rest, w⟩)
    (hc : Config.step ⟨x :: rest, w⟩ = some c') (ha : c'.world.Alive r.mw)
    (hr : w.BusTake t r) : c'.Floats t r := by
  obtain ⟨p, htakes⟩ := hr.takesFrom
  have ha₀ := h.alive_of_step hr.1 hc ha
  rcases h.marks_step hr.1 hc with hm | ⟨hx, idle, hm, htakers⟩
  · have back {signal : Signal} (hb : c'.Brings r signal) (hne : signal ≠ .ended) :
        Config.Brings ⟨x :: rest, w⟩ r signal ∨ w.OnBus r ∧ ∃ a, signal = .value (.action a) := by
      refine (h.brings_take hc ha htakes hb).imp id ?_
      rintro ⟨ho, ⟨a, -, -, hsignal⟩ | ⟨-, hsignal⟩⟩
      · exact ⟨ho, a, hsignal⟩
      · exact absurd hsignal.2 hne
    constructor
    · rw [hm]
      exact fun hb => hF.onBus (h.onBus_of_step hc ha htakes hb)
    · rw [hm]
      intro v hb
      rcases back hb (by simp) with hb | ⟨ho, a, hv⟩
      · exact hF.action hb
      · exact ⟨⟨a, by cases hv; rfl⟩, hF.onBus ho⟩
    · rw [hm]
      intro hb
      rcases h.brings_take hc ha htakes hb with hb | ⟨ho, ⟨a, -, -, hsignal⟩ | ⟨hx, idle, -⟩⟩
      · exact hF.ended hb
      · cases hsignal
      · exact absurd (hm.symm.trans (Config.marks_of_ends hc ha₀ hx idle)) (by simp)
    · intro f hb
      rcases back hb (by simp) with hb | ⟨-, a, hv⟩
      · exact hF.fault hb
      · cases hv
  · have hnone {signal : Signal} : ¬ Config.Brings ⟨x :: rest, w⟩ r signal :=
      h.not_brings_of_ends ha₀ hx idle htakes
    have only {signal : Signal} (hb : c'.Brings r signal) : signal = .ended := by
      rcases h.brings_take hc ha htakes hb with hb | ⟨-, ⟨a, sender, rfl, -⟩ | ⟨-, -, hsignal⟩⟩
      · exact absurd hb hnone
      · exact hx.elim
      · exact hsignal
    constructor
    · rintro ⟨b, hb, -⟩
      rw [htakers] at hb
      exact absurd hb List.not_mem_nil
    · exact fun hb => Signal.noConfusion (only hb)
    · intro hb
      obtain ⟨hi, q, p', htr⟩ := hr
      exact ⟨_, hm ▸ List.mem_cons_self, h.triggered_number ha₀ htr⟩
    · exact fun hb => Signal.noConfusion (only hb)

/-- What a take settles with was on its way to it before. -/
theorem World.Lands.step (hL : w.Lands t r) (hF : Config.Floats ⟨x :: rest, w⟩ t r)
    (h : s.Visits ⟨x :: rest, w⟩) (hc : Config.step ⟨x :: rest, w⟩ = some c')
    (ha : c'.world.Alive r.mw) (hr : w.BusTake t r) : c'.world.Lands t r := by
  obtain ⟨p, htakes⟩ := hr.takesFrom
  obtain ⟨es, hpast, -⟩ := h.matures hr.1 hc ha
  have hmarks {m : TaskId} (hm : m ∈ w.marks r.mw) : m ∈ c'.world.marks r.mw := by
    rw [World.mem_marks, hpast]
    exact List.mem_append_right _ (World.mem_marks.1 hm)
  have new {signal : Signal} (hn : .settled r.effect signal ∉ w.past r.mw)
      (hm : .settled r.effect signal ∈ c'.world.past r.mw) :
      Config.Brings ⟨x :: rest, w⟩ r signal ∧ c'.world.marks r.mw = w.marks r.mw := by
    obtain ⟨rfl, -⟩ := h.settles_take hc htakes hn hm
    refine ⟨Or.inr ⟨_, List.mem_cons_self, rfl, rfl⟩, ?_⟩
    exact (h.marks_step hr.1 hc).resolve_right fun hx => hx.1
  constructor
  · intro later v earlier hsplit
    have hsplit' : es.reverse ++ w.past r.mw = later ++ .settled r.effect (.value v) :: earlier :=
      hpast ▸ hsplit
    rcases List.append_eq_append_iff.1 hsplit' with ⟨l, -, hl⟩ | ⟨l, hl, hl'⟩
    · exact hL.action hl
    · cases l with
      | nil =>
        have hl₀ : w.past r.mw = [] ++ .settled r.effect (.value v) :: earlier := hl'.symm
        exact hL.action hl₀
      | cons e l =>
        obtain ⟨rfl, rfl⟩ := List.cons_eq_cons.1 hl'
        have honce := ((h.step hc).kept ha.has).regular.ended_once
        rw [show (Config.view c' r.mw).past = _ from hsplit, endedIn_append] at honce
        have hnew : .settled r.effect (.value v) ∉ w.past r.mw := fun hm =>
          (List.nodup_cons.1 (List.nodup_append.1 honce).2.1).1
            (mem_endedIn.2 ⟨_, List.mem_append_right _ hm, rfl⟩)
        obtain ⟨hb, hm⟩ := new hnew (hsplit ▸ List.mem_append_right _ List.mem_cons_self)
        refine ⟨(hF.action hb).1, fun m hend => (hF.action hb).2 m ?_⟩
        rw [← hm, World.mem_marks, hsplit]
        exact List.mem_append_right _ (List.mem_cons_of_mem _ hend)
  · intro hm
    by_cases hn : .settled r.effect .ended ∈ w.past r.mw
    · obtain ⟨m, hm, hlt⟩ := hL.ended hn
      exact ⟨m, hmarks hm, hlt⟩
    · obtain ⟨m, hm, hlt⟩ := hF.ended (new hn hm).1
      exact ⟨m, hmarks hm, hlt⟩
  · intro f hm
    by_cases hn : .settled r.effect (.fault f) ∈ w.past r.mw
    · exact hL.fault hn
    · exact hF.fault (new hn hm).1

/-- A take that settled with END at most. -/
theorem World.Lands.of_ended (h : ∀ signal, .settled r.effect signal ∈ w.past r.mw →
    signal = .ended ∧ ∃ m ∈ w.marks r.mw, t < m) : w.Lands t r where
  action hs := by cases (h _ (hs ▸ List.mem_append_right _ List.mem_cons_self)).1
  ended hm := (h _ hm).2
  fault hm := by cases (h _ hm).1

/-- A take that is triggered waits if its task has not seen the end, and is told END if it has. -/
theorem Scenario.Visits.afloat_of_born (h : s.Visits ⟨x :: rest, w⟩)
    (hc : Config.step ⟨x :: rest, w⟩ = some c') (ha : c'.world.Alive r.mw)
    (hn : ¬ w.BusTake t r) (hr : c'.world.BusTake t r) : c'.Floats t r ∧ c'.world.Lands t r := by
  obtain ⟨hi', q, p, hm⟩ := hr
  have hi : w.Has r.mw := (h.knows.has_iff hc r.mw).1 hi'
  have hn₀ : ∀ q p, .triggered t r.effect q (.take .bus p) ∉ w.past r.mw :=
    fun q p hm => hn ⟨hi, q, p, hm⟩
  obtain ⟨⟨b, nests, rfl⟩, hy⟩ := h.trigger_of_event hi hc (hn₀ q p) hm
  have hissued : ¬ w.Issued r (.take .bus p) := by
    rintro ⟨-, u, q', hm'⟩
    have : r.effect ∈ triggeredIn (w.past r.mw) := mem_triggeredIn.2 ⟨_, _, _, hm'⟩
    exact h.unknown rfl (hy ▸ this)
  have hquiet {signal : Signal} : ¬ c'.Brings r signal :=
    h.not_brings_of_born hc (e := .take .bus p) trivial hissued ⟨hi', t, q, hm⟩
  have hmarks : c'.world.marks r.mw = w.marks r.mw :=
    (h.marks_step hi hc).resolve_right fun hx => hx.1
  have htide := (h.tidal (h.alive_of_owner rfl)).hasEnded_iff (t := t)
  have hsettled {signal : Signal} : .settled r.effect signal ∉ w.past r.mw := fun hm => by
    have hend : r.effect ∈ endedIn (w.past r.mw) := mem_endedIn.2 ⟨_, hm, rfl⟩
    exact h.unknown rfl (hy ▸ (h.kept hi).regular.triggered_of_ended hend)
  cases hl : w.isHalted r.mw t with
  | true =>
    cases hc
    simp only [World.execTrigger, hl, if_true] at hm
    exact absurd hm (hn₀ q p)
  | false =>
    obtain ⟨q', hstart⟩ := World.execTrigger_takeBus (p := p) hi hl b nests
    cases hc
    rw [← hy] at hstart
    rcases hstart with ⟨hended, htakers, hpast⟩ | ⟨hended, hpast⟩
    · obtain ⟨m, hm₀, hlt⟩ := htide.1 hended
      refine ⟨⟨?_, fun hb => absurd hb hquiet, fun hb => absurd hb hquiet, hquiet⟩, ?_⟩
      · rintro ⟨taker, htaker, he⟩
        have htaker : taker ∈ (w.engine r.mw).bus.takers := htakers ▸ htaker
        obtain ⟨u, hclaims⟩ := (h.wired.fits (h.alive_of_owner rfl)).backed (r := r) (.bus htaker he)
        have hr : r = ⟨r.mw, (w.engine r.mw).nextEffect⟩ := by rw [← hy]
        exact absurd (hr ▸ hclaims) ((h.new (i := r.mw) rfl).claims u _)
      · refine .of_ended fun signal hs => ?_
        have hs : .settled r.effect signal ∈ _ :: _ :: w.past r.mw := hpast ▸ hs
        rcases List.mem_cons.1 hs with hs | hs
        · cases hs
          exact ⟨rfl, m, hmarks ▸ hm₀, hlt⟩
        · exact absurd ((List.mem_cons.1 hs).resolve_left fun h => by cases h) hsettled
    · have hle : ∀ m ∈ w.marks r.mw, m ≤ t := fun m hm =>
        Nat.le_of_not_lt fun hlt => by simp [htide.2 ⟨m, hm, hlt⟩] at hended
      refine ⟨⟨fun _ => hmarks ▸ hle, fun hb => absurd hb hquiet, fun hb => absurd hb hquiet,
        hquiet⟩, .of_ended fun signal hs => ?_⟩
      have hs : .settled r.effect signal ∈ _ :: w.past r.mw := hpast ▸ hs
      exact absurd ((List.mem_cons.1 hs).resolve_left fun h => by cases h) hsettled

/--
No action comes to a take from the bus once a mark is above its task, and END does not come before:
neither to what is on its way to the take, nor to what it settles with.
-/
theorem Scenario.Visits.afloat (h : s.Visits c) (ha : c.world.Alive r.mw)
    (hr : c.world.BusTake t r) : c.Floats t r ∧ c.world.Lands t r := by
  induction h with
  | start h =>
    obtain ⟨-, q, p, hm⟩ := hr
    simp [World.past, (Scenario.setUp_fresh h).journal] at hm
  | @call w h o budget ih =>
    obtain ⟨hF, hL⟩ := ih ha hr
    have hb {signal : Signal} (hb : Config.Brings ⟨[.op .outside .empty o],
        { w with reply := none, budget }⟩ r signal) : Config.Brings ⟨[], w⟩ r signal := by
      rcases Config.brings_cons.1 hb with hb | hb
      · exact hb.elim
      · exact hb
    refine ⟨⟨hF.onBus, fun h => hF.action (hb h), fun h => hF.ended (hb h), fun h => hF.fault (hb h)⟩,
      ⟨hL.action, hL.ended, hL.fault⟩⟩
  | @step c c' h hc ih =>
    obtain ⟨_ | ⟨x, rest⟩, w⟩ := c
    · cases hc
    have hi := (h.knows.has_iff hc r.mw).1 hr.1
    by_cases hr₀ : w.BusTake t r
    · obtain ⟨hF, hL⟩ := ih (h.alive_of_step hi hc ha) hr₀
      exact ⟨hF.step h hc ha hr₀, hL.step hF h hc ha hr₀⟩
    · exact h.afloat_of_born hc ha hr₀ hr

/-- Whoever waits on the bus has a number that no mark is above. -/
theorem Scenario.Visits.le_owner (h : s.Visits c) (ha : c.world.Alive i) {b : BusTaker}
    (hb : b ∈ (c.world.engine i).bus.takers) {m : TaskId} (hm : m ∈ c.world.marks i) :
    m ≤ b.owner :=
  (h.afloat (r := ⟨i, b.effect⟩) ha (h.owner_of_taker ha hb)).1.onBus ⟨b, hb, rfl⟩ m hm

end

end SagaMachine
