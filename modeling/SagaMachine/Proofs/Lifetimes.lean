import Mathlib.Data.List.Chain
import SagaMachine.Proofs.Errands
import SagaMachine.Proofs.Statuses

/-!
# Terminal is final

What the handle of a task shows, from its creation on: it is created, then it is running and
suspended in turns, and then it may become terminal, and stays so. The task is recorded as started
once, and at most once as finished, with the outcome that its handle keeps. Once it is terminal it
is not polled any more, and triggers no effect.

Main statement: `Scenario.Shows.terminal_is_final`.
-/

namespace SagaMachine

/-! ## Outcomes are written down once -/

/-- The bus has ended no further. -/
structure World.SameTide (i : MiddlewareId) (w w' : World) : Prop where
  watermark : (w'.book i).watermark = (w.book i).watermark
  marks : (w'.book i).marks = (w.book i).marks

/--
At most one outcome is written down by an instruction, and the task is recorded as finished with
it; or the mark of an end is written down; or the middleware is dropped.
-/
inductive World.Enlists (i : MiddlewareId) (x : Instr) (w w' : World) : Prop
  | none (outcomes : (w'.book i).outcomes = (w.book i).outcomes)
      (finished : (w'.book i).finished = (w.book i).finished) (tide : w.SameTide i w')
  | one {t : TaskId} {o : Outcome} (outcomes : (w'.book i).outcomes = (w.book i).outcomes.insert t o)
      (finished : (w'.book i).finished = (t, o) :: (w.book i).finished) (tide : w.SameTide i w')
  | ends (head : x.EndsBus i) (idle : x.owner? = .none → (w.engine i).driving = false)
      (outcomes : (w'.book i).outcomes = (w.book i).outcomes)
      (finished : (w'.book i).finished = (w.book i).finished)
      (watermark : (w'.book i).watermark = some (w.engine i).nextTask)
      (marks : (w'.book i).marks = (w.engine i).nextTask :: (w.book i).marks)
      (takers : (w'.engine i).bus.takers = [])
  | drops (gone : ¬ w'.Alive i) (outcomes : (w'.book i).outcomes = (w.book i).outcomes)
      (finished : (w'.book i).finished = (w.book i).finished)
      (marks : (w'.book i).marks = (w.book i).marks)

section

variable {i j : MiddlewareId} {w w' w'' : World} {x : Instr} {next c c' : Config}

/-- Nobody waits on a bus that has just ended. -/
theorem World.takers_endBus (hi : w.Has i) : ((w.endBus i).engine i).bus.takers = [] := by
  have hsched : ∀ (ts : List BusTaker) (w : World), (w.engine i).bus.takers = [] →
      ((ts.foldl (fun w t => w.schedule i (.settle t.effect .ended)) w).engine i).bus.takers = [] := by
    intro ts
    induction ts with
    | nil => exact fun _ h => h
    | cons t ts ih =>
      intro w h
      refine ih _ ?_
      rcases w.engine_setEngine_or i i fun e =>
        { e with agenda := e.agenda.schedule (.settle t.effect .ended) } with he | ⟨-, -, he⟩ <;>
      exact (congrArg (fun e => e.bus.takers) he).trans h
  exact hsched _ _ (congrArg (fun e => e.bus.takers) (World.engine_setEngine hi fun e =>
    { e with bus := ((w.engine i).bus.finish (w.engine i).nextTask).2 }))

theorem World.takers_enterDriver {work : List Instr} :
    ((w.enterDriver j work).world.engine i).bus.takers = (w.engine i).bus.takers := by
  unfold World.enterDriver
  split
  · rfl
  · by_cases hij : i = j
    · subst hij
      cases hm : w.middlewares.get? i <;> simp [World.engine, World.setEngine, hm]
    · rw [(World.untouched_setEngine hij _).engine]

namespace World.Enlists

theorem of_book (h : w'.book i = w.book i) : w.Enlists i x w' :=
  .none (by rw [h]) (by rw [h]) ⟨by rw [h], by rw [h]⟩

/-- What else is booked does not matter. -/
theorem of_booked {b : Book} (hb : w'.book i = b) (ho : b.outcomes = (w.book i).outcomes)
    (hf : b.finished = (w.book i).finished) (hm : b.watermark = (w.book i).watermark)
    (hms : b.marks = (w.book i).marks) : w.Enlists i x w' :=
  .none (hb ▸ ho) (hb ▸ hf) ⟨hb ▸ hm, hb ▸ hms⟩

theorem of_same (hb : w'.book i = w.book i) (he : w'.engine i = w.engine i)
    (h : w'.Enlists i x w'') : w.Enlists i x w'' := by
  cases h with
  | none ho hf ht => exact .none (hb ▸ ho) (hb ▸ hf) ⟨hb ▸ ht.watermark, hb ▸ ht.marks⟩
  | one ho hf ht => exact .one (hb ▸ ho) (hb ▸ hf) ⟨hb ▸ ht.watermark, hb ▸ ht.marks⟩
  | ends hx hd ho hf hm hms ht =>
    exact .ends hx (he ▸ hd) (hb ▸ ho) (hb ▸ hf) (he ▸ hm) (hb ▸ he ▸ hms) ht
  | drops ha ho hf hms => exact .drops ha (hb ▸ ho) (hb ▸ hf) (hb ▸ hms)

theorem finalize (hb : w'.book i = w.book i) (hi : w'.Has i) (t : TaskId) (o : Outcome) :
    w.Enlists i x (w'.finalize i t o).2 := by
  cases hn : w'.task? i t with
  | none =>
    rw [finalize_of_absent hn]
    exact .of_book hb
  | some n =>
    have h := book_finalize hi hn o
    rw [hb] at h
    exact .one (by rw [h]) (by rw [h]) ⟨by rw [h], by rw [h]⟩

theorem cascadeOn (hb : w'.book i = w.book i) (hi : w'.Has i) (t : TaskId) (o : Outcome) :
    w.Enlists i x (World.cascadeOn i (w'.finalize i t o)).world := by
  have h : w.Enlists i x (w'.finalize i t o).2 := finalize hb hi t o
  unfold World.cascadeOn
  split <;> exact h

/-- The bus ends, and then the driver may start. -/
theorem of_endBus (hb : w'.book i = w.book i) (he : w'.engine i = w.engine i) (hi : w'.Has i)
    (head : x.EndsBus i) (idle : x.owner? = .none → (w.engine i).driving = false)
    (hw : w''.book i = (w'.endBus i).book i) (ht : (w''.engine i).bus.takers = []) :
    w.Enlists i x w'' := by
  have h := hw.trans (book_endBus hi)
  rw [hb, he] at h
  exact .ends head idle (by rw [h]) (by rw [h]) (by rw [h]) (by rw [h]) ht

end World.Enlists

/-- An instruction of a middleware itself. -/
theorem Instr.enlists_own (hi : w.Has i) (hx : x.owner? = some i) (hn : x.exec w = some next) :
    w.Enlists i x next.world := by
  by_cases hw : x.Writes
  · cases x with
    | drain j =>
      cases hx
      cases hn
      unfold World.execDrain
      split
      · exact .of_book (World.book_setEngine (j := i)
          (f := fun e => { e with agenda := e.agenda.flush, driving := false })
          fun _ => ⟨rfl, rfl, rfl⟩)
      · exact .of_booked (World.book_next hi _) rfl rfl rfl rfl
    | emit j a sender =>
      cases hx
      cases hn
      exact .of_booked (World.book_execEmit hi a sender) rfl rfl rfl rfl
    | perform j job =>
      cases hx
      cases hn
      cases job with
      | reaction => exact hw.elim
      | errand e =>
        by_cases he : e = .finish
        · subst he
          exact .of_endBus (World.book_fetched _) rfl hi rfl nofun rfl (World.takers_endBus hi)
        · exact .of_book (World.book_execPerform he)
    | trigger turn b nests e =>
      obtain ⟨j, t⟩ := turn
      cases hx
      cases hn
      cases e with
      | put target =>
        cases hl : w.isHalted j t with
        | true =>
          rw [World.execTrigger, if_pos hl]
          exact .of_book rfl
        | false => exact .of_booked (World.book_execTrigger hi t b nests target hl) rfl rfl rfl rfl
      | _ => exact hw.elim
    | abortDone turn f wasCurrent =>
      obtain ⟨j, t⟩ := turn
      cases hx
      cases hn
      cases wasCurrent with
      | true => exact .of_book (by simp [World.execAbortDone])
      | false => exact .cascadeOn rfl hi t _
    | conclude turn =>
      obtain ⟨j, t⟩ := turn
      cases hx
      cases hn
      exact .cascadeOn (World.book_setEngine (f := fun e => { e with halted := none })
        fun _ => ⟨rfl, rfl, rfl⟩) (World.has_setEngine.2 hi) t _
    | cascade j c =>
      cases hx
      cases hn
      cases c with
      | abort => exact .of_book rfl
      | complete t =>
        simp only [World.execCascade]
        split
        · exact .of_book rfl
        · split
          · exact .of_book rfl
          · split
            · exact .of_book rfl
            · exact .cascadeOn (World.book_setTask t fun n => { n with result := none })
                (World.has_setEngine.2 hi) t _
    | cancelOne turn wasCurrent order cascades =>
      obtain ⟨j, t⟩ := turn
      cases hx
      cases hn
      cases wasCurrent with
      | true => exact .of_book (by simp [World.execCancelOne])
      | false => exact .finalize rfl hi t _
    | op => cases hx
    | _ => exact hw.elim
  · exact .of_book ((Instr.plain_exec hw hn).book i)

namespace World.Enlists

theorem opDispatch (hi : w.Has i) (site : Site) (a : Action) :
    w.Enlists i x (w.opDispatch site j a).world := by
  unfold World.opDispatch
  split
  · by_cases hij : i = j
    · subst hij
      exact .of_booked (World.book_queue hi _) rfl rfl rfl rfl
    · exact .of_book (World.untouched_queue hij _).book
  · exact .of_book (by simp)

theorem opFinish (hi : w.Has i) {env : Env} (site : Site) :
    w.Enlists i (.op site env (.finish j)) (w.opFinish site j).world := by
  unfold World.opFinish
  split
  · by_cases hij : i = j
    · subst hij
      exact .of_booked (World.book_queue hi _) rfl rfl rfl rfl
    · exact .of_book (World.untouched_queue hij _).book
  · rename_i hd
    have hplain : (w.endBus j).Plain ((w.endBus j).enterDriver j []) :=
      .enterDriver (fun _ => rfl) rfl
    by_cases hij : i = j
    · subst hij
      refine .of_endBus rfl rfl hi rfl (fun _ => by simpa using hd) (hplain.book i) ?_
      exact World.takers_enterDriver.trans (World.takers_endBus hi)
    · exact .of_book ((hplain.book i).trans (World.book_endBus_of_ne hij))

/-- The outcomes survive the middleware. -/
theorem opDrop (site : Site) : w.Enlists i x (w.opDrop site j).world := by
  unfold World.opDrop
  split
  · rename_i m hm
    by_cases hij : i = j
    · subst hij
      have hw : w.engine i = m.engine := World.engine_of_get? (Option.filter_eq_some_iff.1 hm).1
      refine .drops (by simp [World.Alive, World.alive?]) ?_ rfl rfl
      simp only [World.book, hw]
      simp [World.engine]
    · refine .none ?_ rfl ⟨?_, rfl⟩ <;> simp [World.book, World.engine, hij]
  · exact .of_book rfl
  · exact .of_book rfl

end World.Enlists

namespace Scenario.Visits

variable {s : Scenario}

/-- Every step writes down at most one outcome. -/
theorem enlists (h : s.Visits c) (hi : c.world.Has i) (hc : c.step = some c') :
    ∃ x rest, c.todo = x :: rest ∧ c.world.Enlists i x c'.world := by
  obtain ⟨todo, w⟩ := c
  cases todo with
  | nil => cases hc
  | cons x rest =>
  obtain ⟨next, hn, rfl⟩ := Option.map_eq_some_iff.1 hc
  refine ⟨x, rest, rfl, ?_⟩
  show w.Enlists i x next.world
  cases ho : x.owner? with
  | some j =>
    by_cases hij : i = j
    · subst hij
      exact Instr.enlists_own hi ho hn
    · exact .of_book (World.Spares.exec hij ho hn).untouched.book
  | none =>
    by_cases hw : x.Writes
    · cases x with
      | op site env o =>
        obtain ⟨w', hs, rfl⟩ := Option.map_eq_some_iff.1 hn
        have hu := World.Enacts.GoesOn.spend (fun i => .refl i w) hs i
        have hi' := hu.has.2 hi
        refine .of_same (World.book_spend hs) hu.engine ?_
        cases o with
        | dispatch j a =>
          simp only [World.runOp, World.withMiddleware]
          split
          · exact .of_book rfl
          · exact .opDispatch hi' ..
        | finish j =>
          simp only [World.runOp, World.withMiddleware]
          split
          · exact .of_book rfl
          · exact .opFinish hi' ..
        | drop j => exact .opDrop ..
        | _ => exact hw.elim
      | _ => first | exact hw.elim | cases ho
    · exact .of_book ((Instr.plain_exec hw hn).book i)

/-- Wherever a scenario comes to, the frames agree with the statuses of their tasks. -/
theorem judged (h : s.Visits c) (hi : c.world.Has i) :
    Judged (c.world.core i) (framesOf i c.todo) := by
  have hj := h.invariant (P := fun v => Sound i v ∧ Judged v.core v.frames) ⟨.start i, .start⟩
    (fun hv hm => ⟨hv.1.move hm, hv.2.move hv.1 hm⟩) hi
  exact hj.2

/-- What a step means for the statuses of the tasks of a middleware that is not dropped. -/
theorem matures (h : s.Visits c) (hi : c.world.Has i) (hc : c.step = some c') (ha : c'.world.Alive i) :
    ∃ es, c'.world.past i = es.reverse ++ c.world.past i ∧
      (c.world.core i).Matures es (c'.world.core i) :=
  (Config.moves_of_step h.knows hi hc).matures (h.sound hi) (h.judged hi) (Config.alive_iff.2 ha)

end Scenario.Visits

/-! ## What is recorded of a task -/

/-- A step leaves all tasks in the table, or the outcome of one of them is recorded. -/
inductive World.Concludes (i : MiddlewareId) (w w' : World) : Prop
  | none (outcomes : (w'.book i).outcomes = (w.book i).outcomes)
      (finished : (w'.book i).finished = (w.book i).finished)
      (kept : ∀ {t p}, (w.core i).posture t = some p → ∃ p', (w'.core i).posture t = some p')
  | one {t : TaskId} {o : Outcome} {p : Posture}
      (outcomes : (w'.book i).outcomes = (w.book i).outcomes.insert t o)
      (finished : (w'.book i).finished = (t, o) :: (w.book i).finished)
      (here : (w.core i).posture t = some p) (verdict : p.status.Becomes o.status)
      (posture : (w'.core i).posture = ((w.core i).bury t).posture)

theorem filterMap_verdict?_of_silent {es : List Event} (h : finishedIn es = []) :
    es.filterMap Event.verdict? = [] := by
  refine List.filterMap_eq_nil_iff.2 fun e he => ?_
  have := List.filterMap_eq_nil_iff.1 h e he
  cases e with
  | taskFinished => cases this
  | _ => rfl

theorem Scenario.Visits.concludes {s : Scenario} (h : s.Visits c) (hi : c.world.Has i)
    (hc : c.step = some c') (ha : c'.world.Alive i) : c.world.Concludes i c'.world := by
  obtain ⟨x, rest, -, hE⟩ := h.enlists hi hc
  have hfinished : ∀ {es : List Event}, finishedIn es = [] → ∀ {past}, c'.world.past i = es ++ past →
      (c'.world.book i).finished = past.filterMap Event.verdict? := by
    intro es hes past hp
    show (c'.world.past i).filterMap Event.verdict? = _
    rw [hp, List.filterMap_append, filterMap_verdict?_of_silent hes, List.nil_append]
  cases h.turnover hi hc with
  | evolves _ past silent core =>
    have hsame : (c'.world.book i).finished = (c.world.book i).finished := hfinished silent past
    cases hE with
    | none ho hf | ends _ _ ho hf | drops _ ho hf =>
      refine .none ho hf fun hp => ?_
      obtain ⟨p', hp', -⟩ := core.kept hp
      exact ⟨p', hp'⟩
    | one ho hf =>
      rw [hsame] at hf
      exact absurd hf (List.ne_cons_self)
  | @records x F G u q outcome es _ frames _ head here past silent posture =>
    have hone : (c'.world.book i).finished = (u, outcome) :: (c.world.book i).finished :=
      hfinished silent past
    cases hE with
    | none ho hf | ends _ _ ho hf | drops _ ho hf =>
      rw [hone] at hf
      exact absurd hf.symm (List.ne_cons_self)
    | one ho hf =>
      obtain ⟨hv, -⟩ := List.cons.inj (hf.symm.trans hone)
      cases hv
      have hj := h.judged hi
      rw [show framesOf i c.todo = x :: F from frames] at hj
      exact .one ho hf here (head.verdict hj here) posture
  | dies alive => exact absurd (Config.alive_iff.2 ha) (by simp [alive])

/-- The outcome of a task that an event records. -/
def Event.verdictOf? (t : TaskId) (e : Event) : Option Outcome :=
  e.verdict?.bind fun v => if v.1 = t then some v.2 else none

/-- How often a task was recorded as started. -/
def World.starts (w : World) (t : TaskRef) : Nat :=
  ((w.past t.owner).filterMap Event.started?).count t.id

/-- The outcomes that are recorded of a task. -/
def World.verdicts (w : World) (t : TaskRef) : List Outcome :=
  (w.past t.owner).filterMap (Event.verdictOf? t.id)

/-- The polls of a task and the effects that it triggered. -/
def World.acts (w : World) (t : TaskRef) : List Event :=
  (w.past t.owner).filter fun e => decide (e.act? = some t.id)

/-- The numbers that tasks were created under. -/
def World.Created (w : World) (t : TaskRef) : Prop :=
  0 < t.id ∧ t.id < (w.core t.owner).nextTask

/--
What is recorded of a task: it was created once, and it is in the table until its outcome is
recorded, which is the one that is written down.
-/
structure World.Keeps (w : World) (t : TaskRef) : Prop where
  positive : 0 < (w.core t.owner).nextTask
  started : w.starts t = if 0 < t.id ∧ t.id < (w.core t.owner).nextTask then 1 else 0
  present : ∀ p, (w.core t.owner).posture t.id = some p → w.Created t
  listed : w.Created t → (∃ p, (w.core t.owner).posture t.id = some p) ∨
    ∃ o, w.outcomeOf t = some o
  verdicts : w.verdicts t = (w.outcomeOf t).toList
  absent : ∀ o, w.outcomeOf t = some o → (w.core t.owner).posture t.id = none ∧ w.Created t

theorem World.verdicts_eq (w : World) (t : TaskRef) : w.verdicts t =
    (w.book t.owner).finished.filterMap fun v => if v.1 = t.id then some v.2 else none := by
  rw [book, List.filterMap_filterMap]
  rfl

theorem World.Fresh.keeps (h : w.Fresh) (t : TaskRef) : w.Keeps t := by
  have he : w.engine t.owner = {} := h.engine t.owner
  have hp : w.past t.owner = [] := by simp [World.past, h.journal]
  have hk : w.core t.owner = Engine.core {} := by rw [World.core, he]
  have ho : w.outcomeOf t = none := by
    rw [World.outcomeOf, he]
    rfl
  refine ⟨by rw [hk]; decide, ?_, ?_, ?_, ?_, ?_⟩
  · rw [World.starts, hp, hk, if_neg]
    · rfl
    · exact fun h => Nat.not_lt_of_le h.1 h.2
  · intro p hp
    rw [hk] at hp
    cases hp
  · intro hc
    rw [World.Created, hk] at hc
    exact (Nat.not_lt_of_le hc.1 hc.2).elim
  · rw [World.verdicts, hp, ho]
    rfl
  · intro o hoo
    rw [ho] at hoo
    cases hoo

section

variable {t : TaskRef} {es : List Event}

theorem World.Created.mature (h : w.Created t) (hm : (w.core t.owner).Matures es (w'.core t.owner)) :
    w'.Created t := ⟨h.1, Nat.lt_of_lt_of_le h.2 hm.number⟩

/-- A task is recorded as started when it gets its number. -/
theorem World.Keeps.started_step (h : w.Keeps t) (hpast : w'.past t.owner = es.reverse ++ w.past t.owner)
    (hm : (w.core t.owner).Matures es (w'.core t.owner)) :
    w'.starts t = if 0 < t.id ∧ t.id < (w'.core t.owner).nextTask then 1 else 0 := by
  have hcount : w'.starts t = (es.filterMap Event.started?).count t.id + w.starts t := by
    rw [World.starts, hpast, List.filterMap_append, List.count_append, List.filterMap_reverse,
      List.count_reverse]
    rfl
  rw [hcount, h.started]
  rcases hm.births with ⟨hn, hes⟩ | ⟨hn, hes, -⟩
  · rw [hes, hn, List.count_nil, Nat.zero_add]
  · have hsum : ∀ n m : Nat, 0 < n →
        (if n = m then 1 else 0) + (if 0 < m ∧ m < n then 1 else 0) =
          if 0 < m ∧ m < n + 1 then 1 else 0 := by
      intro n m hn
      split_ifs <;> omega
    rw [hes, hn, List.count_singleton]
    simp only [beq_iff_eq]
    exact hsum _ _ h.positive

/-- What a step means for one task: its outcome stays, or it leaves the table with its outcome. -/
inductive World.Decides (t : TaskRef) (w w' : World) : Prop
  | stays (outcome : w'.outcomeOf t = w.outcomeOf t) (verdicts : w'.verdicts t = w.verdicts t)
      (kept : ∀ {p}, (w.core t.owner).posture t.id = some p →
        ∃ p', (w'.core t.owner).posture t.id = some p')
  | leaves {o : Outcome} {p : Posture} (here : (w.core t.owner).posture t.id = some p)
      (outcome : w'.outcomeOf t = some o) (verdicts : w'.verdicts t = o :: w.verdicts t)
      (verdict : p.status.Becomes o.status) (gone : (w'.core t.owner).posture t.id = none)

theorem World.Concludes.decides (h : w.Concludes t.owner w') : w.Decides t w' := by
  have hout : ∀ w : World, w.outcomeOf t = (w.book t.owner).outcomes.get? t.id := fun _ => rfl
  cases h with
  | none ho hf kept => exact .stays (by rw [hout, ho, hout]) (by rw [verdicts_eq, hf, verdicts_eq]) kept
  | @one u o p ho hf here verdict posture =>
    by_cases hu : t.id = u
    · subst hu
      refine .leaves here (o := o) ?_ ?_ verdict ?_
      · rw [hout, ho, Table.get?_insert, if_pos rfl]
      · rw [verdicts_eq, hf, List.filterMap_cons, if_pos rfl, verdicts_eq]
      · rw [posture, Core.posture_bury, if_pos rfl]
    · refine .stays ?_ ?_ fun hp => ?_
      · rw [hout, ho, Table.get?_insert, if_neg hu, hout]
      · rw [verdicts_eq, hf, List.filterMap_cons, if_neg (Ne.symm hu), verdicts_eq]
      · obtain ⟨p', hp', -⟩ := Core.posture_bury_of_ne hu hp
        exact ⟨p', posture ▸ hp'⟩

theorem Scenario.Visits.keeps {s : Scenario} (h : s.Visits c) (t : TaskRef) (ha : c.world.Alive t.owner) :
    c.world.Keeps t := by
  induction h with
  | start h => exact (setUp_fresh h).keeps t
  | call h o budget ih =>
    have ih := ih ha
    exact ⟨ih.positive, ih.started, ih.present, ih.listed, ih.verdicts, ih.absent⟩
  | @step c c' h hc ih =>
    have hi := (h.knows.has_iff hc t.owner).1 ha.has
    have ih := ih (h.alive_of_step hi hc ha)
    obtain ⟨es, hpast, hm⟩ := h.matures hi hc ha
    have hd := (h.concludes hi hc ha).decides
    refine ⟨Nat.lt_of_lt_of_le ih.positive hm.number, ih.started_step hpast hm, fun p' hp' => ?_,
      fun hnew => ?_, ?_, fun o ho => ?_⟩
    · refine ⟨?_, (((h.step hc).sound ha.has).orderly.tasks hp').number⟩
      cases hp : (c.world.core t.owner).posture t.id with
      | none => exact Nat.lt_of_lt_of_le ih.positive (hm.new hp hp').1
      | some p => exact (ih.present p hp).1
    · have hborn : (c.world.Created t) ∨ ∃ p', (c'.world.core t.owner).posture t.id = some p' := by
        rcases hm.births with ⟨hn, -⟩ | ⟨hn, -, p', hp'⟩
        · exact Or.inl ⟨hnew.1, hn ▸ hnew.2⟩
        · rcases Nat.lt_succ_iff_lt_or_eq.1 (hn ▸ hnew.2) with hlt | heq
          · exact Or.inl ⟨hnew.1, hlt⟩
          · exact Or.inr ⟨p', heq ▸ hp'⟩
      rcases hborn with hcreated | hp'
      · cases hd with
        | stays outcome _ kept =>
          exact (ih.listed hcreated).imp (fun ⟨p, hp⟩ => kept hp) fun ⟨o, ho⟩ => ⟨o, outcome.trans ho⟩
        | leaves _ outcome => exact Or.inr ⟨_, outcome⟩
      · exact Or.inl hp'
    · cases hd with
      | stays outcome verdicts => rw [verdicts, outcome, ih.verdicts]
      | leaves here outcome verdicts =>
        have hnone : c.world.outcomeOf t = none := by
          cases ho : c.world.outcomeOf t with
          | none => rfl
          | some o =>
            rw [(ih.absent o ho).1] at here
            cases here
        rw [verdicts, outcome, ih.verdicts, hnone]
        rfl
    · cases hd with
      | stays outcome =>
        obtain ⟨hnone, hcreated⟩ := ih.absent o (outcome ▸ ho)
        refine ⟨?_, hcreated.mature hm⟩
        cases hp' : (c'.world.core t.owner).posture t.id with
        | none => rfl
        | some p' => exact absurd hcreated.2 (Nat.not_lt_of_le (hm.new hnone hp').1)
      | leaves here _ _ _ gone => exact ⟨gone, (ih.present _ here).mature hm⟩

/-! ## What the handle shows -/

/-- The handle shows the status of the outcome, or else that of the task in the table. -/
theorem World.statusOf_eq (ha : w.Alive t.owner) : w.statusOf t =
    match w.outcomeOf t, (w.core t.owner).posture t.id with
      | some o, _ => o.status
      | none, some p => p.status
      | none, none => .cancelled := by
  have hm : ∃ m, w.living? t.owner = some m ∧ m.engine = w.engine t.owner := by
    obtain ⟨m, hm⟩ := ha.has
    have hal : m.alive = true := by simpa [World.Alive, World.alive?, hm] using ha
    exact ⟨m, by simp [World.living?, hm, hal], (World.engine_of_get? hm).symm⟩
  obtain ⟨m, hliving, he⟩ := hm
  rw [World.statusOf, hliving, World.posture_core, World.task?, ← he]
  simp only [Option.bind_some]
  cases w.outcomeOf t with
  | some o => rfl
  | none => cases m.engine.tasks.get? t.id <;> rfl

theorem World.statusOf_of_outcome {o : Outcome} (ho : w.outcomeOf t = some o) :
    w.statusOf t = o.status := by
  rw [World.statusOf, ho]

theorem World.Keeps.statusOf (h : w.Keeps t) (ha : w.Alive t.owner) {p : Posture}
    (hp : (w.core t.owner).posture t.id = some p) : w.statusOf t = p.status := by
  rw [World.statusOf_eq ha, hp]
  cases ho : w.outcomeOf t with
  | none => rfl
  | some o =>
    rw [(h.absent o ho).1] at hp
    cases hp

namespace Scenario.Visits

variable {s : Scenario}

/-- The handle of a new task shows that it was created. -/
theorem status_born (h : s.Visits c) (hi : c.world.Has t.owner) (hc : c.step = some c')
    (ha : c'.world.Alive t.owner) (hnew : ¬ c.world.Created t) (hborn : c'.world.Created t) :
    c'.world.statusOf t = .created := by
  have hk := h.keeps t (h.alive_of_step hi hc ha)
  obtain ⟨es, -, hm⟩ := h.matures hi hc ha
  have hnone : (c.world.core t.owner).posture t.id = none := by
    cases hp : (c.world.core t.owner).posture t.id with
    | none => rfl
    | some p => exact absurd (hk.present p hp) hnew
  obtain ⟨p', hp'⟩ : ∃ p', (c'.world.core t.owner).posture t.id = some p' := by
    rcases hm.births with ⟨hn, -⟩ | ⟨hn, -, p', hp'⟩
    · exact absurd ⟨hborn.1, hn ▸ hborn.2⟩ hnew
    · rcases Nat.lt_succ_iff_lt_or_eq.1 (hn ▸ hborn.2) with hlt | heq
      · exact absurd ⟨hborn.1, hlt⟩ hnew
      · exact ⟨p', heq ▸ hp'⟩
  rw [((h.step hc).keeps t ha).statusOf ha hp', (hm.new hnone hp').2]

/-- The status that the handle of a task shows stays, or the next one comes. -/
theorem status_step (h : s.Visits c) (hi : c.world.Has t.owner) (hc : c.step = some c')
    (ha : c'.world.Alive t.owner) (hcreated : c.world.Created t) :
    (c.world.statusOf t).Becomes (c'.world.statusOf t) := by
  have ha₀ := h.alive_of_step hi hc ha
  have hk := h.keeps t ha₀
  obtain ⟨es, -, hm⟩ := h.matures hi hc ha
  cases (h.concludes hi hc ha).decides with
  | stays outcome _ kept =>
    rcases hk.listed hcreated with ⟨p, hp⟩ | ⟨o, ho⟩
    · obtain ⟨p', hp'⟩ := kept hp
      rw [hk.statusOf ha₀ hp, ((h.step hc).keeps t ha).statusOf ha hp']
      exact hm.old hp hp'
    · rw [World.statusOf_of_outcome ho, World.statusOf_of_outcome (outcome.trans ho)]
      exact .refl _
  | leaves here outcome _ verdict =>
    rw [hk.statusOf ha₀ here, World.statusOf_of_outcome outcome]
    exact verdict

/-- A task whose handle shows a terminal status does not go on. -/
theorem acts_step (h : s.Visits c) (hi : c.world.Has t.owner) (hc : c.step = some c')
    (ha : c'.world.Alive t.owner) (hterm : (c.world.statusOf t).isTerminal = true) :
    c'.world.acts t = c.world.acts t := by
  have ha₀ := h.alive_of_step hi hc ha
  obtain ⟨es, hpast, hm⟩ := h.matures hi hc ha
  have hnot : ¬ (c.world.core t.owner).Live t.id := by
    rintro ⟨p, hp, hl⟩
    rw [(h.keeps t ha₀).statusOf ha₀ hp, hl] at hterm
    cases hterm
  rw [World.acts, hpast, List.filter_append, List.filter_eq_nil_iff.2, List.nil_append]
  · rfl
  · intro e he hact
    exact hnot (hm.acts e (List.mem_reverse.1 he) t.id (of_decide_eq_true hact))

/-- The outcome that the handle of a task keeps is never replaced. -/
theorem outcome_step (h : s.Visits c) (hi : c.world.Has t.owner) (hc : c.step = some c')
    (ha : c'.world.Alive t.owner) {o : Outcome} (ho : c.world.outcomeOf t = some o) :
    c'.world.outcomeOf t = some o := by
  cases (h.concludes hi hc ha).decides with
  | stays outcome => exact outcome.trans ho
  | leaves here =>
    rw [((h.keeps t (h.alive_of_step hi hc ha)).absent o ho).1] at here
    cases here

end Scenario.Visits

/-! ## From the creation of a task on -/

/-- A run, with the statuses that the handle of a task showed since the task was created. -/
inductive Scenario.Shows (s : Scenario) (t : TaskRef) : List Status → Config → Prop
  | born {c c' : Config} (h : s.Visits c) (hc : c.step = some c') (hnew : ¬ c.world.Created t)
      (hborn : c'.world.Created t) : s.Shows t [c'.world.statusOf t] c'
  | call {w : World} {statuses : List Status} (h : s.Shows t statuses ⟨[], w⟩) (o : Op)
      (budget : Nat) : s.Shows t statuses ⟨[.op .outside .empty o], { w with reply := none, budget }⟩
  | same {c c' : Config} {statuses : List Status} (h : s.Shows t statuses c)
      (hc : c.step = some c') (hs : c'.world.statusOf t = c.world.statusOf t) :
      s.Shows t statuses c'
  | changes {c c' : Config} {statuses : List Status} (h : s.Shows t statuses c)
      (hc : c.step = some c') (hs : c'.world.statusOf t ≠ c.world.statusOf t) :
      s.Shows t (statuses ++ [c'.world.statusOf t]) c'

namespace Scenario.Shows

variable {s : Scenario} {statuses : List Status}

theorem visits (h : s.Shows t statuses c) : s.Visits c := by
  induction h with
  | born h hc => exact h.step hc
  | call _ o budget ih => exact ih.call o budget
  | same _ hc _ ih | changes _ hc _ ih => exact ih.step hc

/-- The statuses of a task come one after the other, and the first one is that it was created. -/
theorem lifetime (h : s.Shows t statuses c) (ha : c.world.Alive t.owner) :
    c.world.Created t ∧ statuses.head? = some .created ∧
      statuses.getLast? = some (c.world.statusOf t) ∧ statuses.IsChain Status.Next := by
  induction h with
  | born h hc hnew hborn =>
    have hs := h.status_born ((h.knows.has_iff hc t.owner).1 ha.has) hc ha hnew hborn
    exact ⟨hborn, by rw [hs]; rfl, rfl, .singleton _⟩
  | call _ o budget ih => exact ih ha
  | same h hc hs ih =>
    have hi := (h.visits.knows.has_iff hc t.owner).1 ha.has
    obtain ⟨hcreated, hhead, hlast, hchain⟩ := ih (h.visits.alive_of_step hi hc ha)
    obtain ⟨es, -, hm⟩ := h.visits.matures hi hc ha
    exact ⟨hcreated.mature hm, hhead, hs ▸ hlast, hchain⟩
  | @changes c c' statuses h hc hs ih =>
    have hi := (h.visits.knows.has_iff hc t.owner).1 ha.has
    obtain ⟨hcreated, hhead, hlast, hchain⟩ := ih (h.visits.alive_of_step hi hc ha)
    obtain ⟨es, -, hm⟩ := h.visits.matures hi hc ha
    have hnext := (h.visits.status_step hi hc ha hcreated).resolve_left hs
    refine ⟨hcreated.mature hm, ?_, by simp, ?_⟩
    · rw [List.head?_append, hhead]
      rfl
    · refine List.isChain_append.2 ⟨hchain, .singleton _, fun a hal b hb => ?_⟩
      rw [hlast] at hal
      cases hal
      cases hb
      exact hnext

end Scenario.Shows

/-- What is final of a task: its outcome, and with a terminal status all that it did. -/
structure World.Final (t : TaskRef) (w w' : World) : Prop where
  outcome : ∀ o, w.outcomeOf t = some o → w'.outcomeOf t = some o
  status : (w.statusOf t).isTerminal = true → w'.statusOf t = w.statusOf t
  acts : (w.statusOf t).isTerminal = true → w'.acts t = w.acts t

namespace Scenario.Visits

variable {s : Scenario}

/-- What is final stays so wherever the run goes on to. -/
theorem final (h : s.Visits c) (hcreated : c.world.Created t) (hc : c.Precedes c') :
    c'.world.Alive t.owner → c'.world.Created t ∧ World.Final t c.world c'.world := by
  induction hc with
  | refl => exact fun _ => ⟨hcreated, fun _ ho => ho, fun _ => rfl, fun _ => rfl⟩
  | call _ o budget ih =>
    intro ha
    obtain ⟨hcreated', hf⟩ := ih ha
    exact ⟨hcreated', hf.outcome, hf.status, hf.acts⟩
  | @step c' c'' hc hstep ih =>
    intro ha
    have hv := h.precedes hc
    have hi := (hv.knows.has_iff hstep t.owner).1 ha.has
    obtain ⟨hcreated', hf⟩ := ih (hv.alive_of_step hi hstep ha)
    obtain ⟨es, -, hm⟩ := hv.matures hi hstep ha
    refine ⟨hcreated'.mature hm, fun o ho => hv.outcome_step hi hstep ha (hf.outcome o ho),
      fun hs => ?_, fun hs => ?_⟩
    · have hb := hv.status_step hi hstep ha hcreated'
      rw [hf.status hs] at hb
      exact hb.of_terminal hs
    · rw [hv.acts_step hi hstep ha (by rw [hf.status hs]; exact hs), hf.acts hs]

/-- The statuses of every task of a middleware that was not dropped can be followed. -/
theorem shows (h : s.Visits c) (ha : c.world.Alive t.owner) (hcreated : c.world.Created t) :
    ∃ statuses, s.Shows t statuses c := by
  induction h with
  | @start w h =>
    have hk : w.core t.owner = Engine.core {} := by rw [World.core, (setUp_fresh h).engine]
    rw [World.Created, hk] at hcreated
    exact (Nat.not_lt_of_le hcreated.1 hcreated.2).elim
  | call _ o budget ih =>
    obtain ⟨statuses, hs⟩ := ih ha hcreated
    exact ⟨statuses, hs.call o budget⟩
  | @step c c' h hc ih =>
    have hi := (h.knows.has_iff hc t.owner).1 ha.has
    by_cases hold : c.world.Created t
    · obtain ⟨statuses, hs⟩ := ih (h.alive_of_step hi hc ha) hold
      by_cases hsame : c'.world.statusOf t = c.world.statusOf t
      · exact ⟨statuses, hs.same hc hsame⟩
      · exact ⟨_, hs.changes hc hsame⟩
    · exact ⟨_, .born h hc hold hcreated⟩

end Scenario.Visits

/--
Terminal is final. The statuses that the handle of a task shows start with its creation and come
in their order, up to the present one; the task was recorded as started once, and as finished with
the outcome that its handle keeps, if there is one, and no other; the handle shows the status of
that outcome. Outcome and terminal status never change as long as the middleware lives, and once
the status is terminal the body is not polled any more, nor is an effect triggered for the task.
-/
theorem Scenario.Shows.terminal_is_final {s : Scenario} {statuses : List Status}
    (h : s.Shows t statuses c) (ha : c.world.Alive t.owner) :
    statuses.head? = some .created ∧ statuses.getLast? = some (c.world.statusOf t) ∧
      statuses.IsChain Status.Next ∧ c.world.starts t = 1 ∧
      c.world.verdicts t = (c.world.outcomeOf t).toList ∧
      (∀ o, c.world.outcomeOf t = some o → c.world.statusOf t = o.status) ∧
      ∀ c', c.Precedes c' → c'.world.Alive t.owner → World.Final t c.world c'.world := by
  obtain ⟨hcreated, hhead, hlast, hchain⟩ := h.lifetime ha
  have hk := h.visits.keeps t ha
  exact ⟨hhead, hlast, hchain, hk.started.trans (if_pos hcreated), hk.verdicts,
    fun o ho => World.statusOf_of_outcome ho, fun c' hc ha' => (h.visits.final hcreated hc ha').2⟩

/-- A task forks a child that returns at once, and waits for what never comes. -/
def Scenario.outlivesChild : Scenario where
  middlewares := [{}]
  scripts := [
    ("child", [.return .unit]),
    ("parent", [.perform (.fork { source := .named "child" }) none none,
      .perform (.take none .any) none none])]

theorem Scenario.terminal_is_final_outlivesChild : ∃ statuses c c' o,
    outlivesChild.Shows ⟨0, 2, "child"⟩ statuses c ∧ c.Precedes c' ∧ c'.isDone = true ∧
      statuses.head? = some .created ∧ statuses.getLast? = some .done ∧
      statuses.IsChain Status.Next ∧ c.world.starts ⟨0, 2, "child"⟩ = 1 ∧
      c.world.verdicts ⟨0, 2, "child"⟩ = [o] ∧ o.status = .done ∧
      World.Final ⟨0, 2, "child"⟩ c.world c'.world := by
  have h : ((outlivesChild.during? (.run 0 { source := .named "parent" } none) 20).any fun c =>
      decide (c.world.alive? 0 = some true ∧ 2 < (c.world.engine 0).nextTask ∧
        (c.world.outcomeOf ⟨0, 2, "child"⟩).map Outcome.status = some .done ∧
        (c.run 11).isDone = true ∧ (c.run 11).world.alive? 0 = some true)) = true := by
    decide +kernel
  obtain ⟨c, hc, h⟩ := (Option.any_eq_true ..).1 h
  obtain ⟨ha, hnumber, hout, hdone, ha'⟩ := of_decide_eq_true h
  obtain ⟨o, hout, ho⟩ := Option.map_eq_some_iff.1 hout
  obtain ⟨statuses, hshows⟩ := (Visits.of_during? hc).shows (t := ⟨0, 2, "child"⟩) ha
    ⟨Nat.zero_lt_two, hnumber⟩
  have hlater : c.Precedes (c.run 11) := Config.Precedes.refl.run 11
  obtain ⟨hhead, hlast, hchain, hstarts, hverdicts, hstatus, hfinal⟩ := hshows.terminal_is_final ha
  refine ⟨statuses, c, _, o, hshows, hlater, hdone, hhead, ?_, hchain, hstarts, ?_, ho,
    hfinal _ hlater ha'⟩
  · rw [hlast, hstatus o hout, ho]
  · rw [hverdicts, hout]
    rfl

end

end

end SagaMachine
