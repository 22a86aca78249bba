import SagaMachine.Proofs.Endings
import SagaMachine.Proofs.Turns

/-!
# The invariant holds wherever a run comes to

Every move keeps the tasks in order and the wait table with them: the moves within the step
of a task (`Does.sound_turn`), those that end a step (`Does.sound_leave`), and those of the
driver and of the frames that end tasks (`Does.sound`).

Main statement: `Sound.move`.
-/

namespace SagaMachine

section

variable {i : MiddlewareId} {k k' : Core} {F G : List Instr} {D : List TaskId} {x : Instr}
  {t : TaskId} {past es : List Event}

/-! ## Steps -/

/-- A task whose body is at work is not parked on anything in the table. -/
theorem Tabled.unparked (h : Tabled k F past) (ht : k.Afoot t) {p : Posture} {y : EffectId}
    (hp : k.posture t = some p) (hy : p.pending = some y) : k.waits.get? y = none := by
  cases hw : k.waits.get? y with
  | none => rfl
  | some w =>
    obtain ⟨hwt, hl, hn⟩ := h.pending hp hy hw
    obtain ⟨q, hq, hb, -⟩ := h.rooted hw hl hn
    rw [hwt] at hq
    rw [(ht.2 q hq).1] at hb
    cases hb

/-- What is started within a step touches no root of another task. -/
theorem Waits.Touches.roots {k k' : Core} {new : List EffectId}
    (h : k.waits.Touches k'.waits t new) (ht : k.Afoot t) (u : TaskId) : k.Roots k' u := by
  intro p y w hp hl hb _ hw hwt hlink
  by_cases hut : u = t
  · subst hut
    rw [(ht.2 p hp).1] at hb
    cases hb
  · exact ⟨w, h.other hw (hwt ▸ hut), hwt, hlink⟩

/-- Everything stays in order within the step of a task. -/
theorem Does.sound_turn (h : Does i past x k k' G D es) (hx : x.turn? = some t)
    (hn : ∀ b exit, x ≠ .leave ⟨i, t⟩ b exit) (hcur : k.current = some t)
    (ho : Orderly i k [x, .drain i]) (hT : Tabled k [x, .drain i] past) :
    Orderly i k' (G ++ [.drain i]) ∧ Tabled k' (G ++ [.drain i]) (es.reverse ++ past) := by
  have ht := (ho.driver hcur).1
  rcases h.turns hx hT ht (ho.frames x List.mem_cons_self) with
    ⟨b, exit, rfl⟩ | ⟨g, G₀, k₁, rfl, hG₀, hg, hk'⟩
  · exact absurd rfl (hn b exit)
  · obtain ⟨new, hturns⟩ := hg.turns
    have ho₁ : Orderly i k₁ ([g] ++ [.drain i]) := by
      refine ho.unmoved hg.unmoved (.of_turn hx) ?_ (hturns.touches.roots ht) ?_
      · intro y hy
        rw [List.mem_singleton.1 hy]
        exact hg.relies
      · intro u p _ _ _ _ r _ howe
        refine howe.grow hg.grows fun he => ?_
        rw [he] at hx
        cases hx
    have hT₁ : Tabled k₁ ([g] ++ [.drain i]) (es.reverse ++ past) := hT.turn hx ht hturns
    have hcancel : ∀ y ∈ G₀, y.turn? = none ∧ (∀ k, y.Relies k) ∧ ¬ y.Urgent := by
      intro y hy
      obtain ⟨u, rfl⟩ := hG₀ y hy
      exact ⟨rfl, fun _ => trivial, id⟩
    have ho₂ := ho₁.extend (G := G₀) ⟨rfl, rfl, rfl, rfl⟩ rfl (.refl _) fun y hy =>
      (hcancel y hy).2.1 _
    have hT₂ := hT₁.append (G := G₀) fun y hy => .of_turn (hcancel y hy).1
    rw [List.append_assoc]
    rcases hk' with rfl | ⟨detached, hl, hrel, rfl⟩
    · exact ⟨ho₂, hT₂⟩
    · refine ⟨ho₂.created ?_ ?_, ?_⟩
      · intro u hu
        cases hu
        obtain ⟨p, hp, hlive⟩ := hl
        exact ⟨p, by rw [hg.unmoved.posture, hp], hlive⟩
      · intro y hy
        rcases List.mem_append.1 hy with hy | hy
        · exact Or.inl (hcancel y hy).2.2
        · rcases List.mem_append.1 hy with hy | hy
          · rw [List.mem_singleton.1 hy]
            exact Or.inr hrel
          · rw [List.mem_singleton.1 hy]
            exact Or.inl id
      · exact (hT₂.create (fun hp => (ho₂.tasks hp).number) _ _).congr rfl rfl rfl

/-- A body that came to its end leaves the table alone. -/
theorem Tabled.leave {b : Body} {exit : Exit} (h : Tabled k [.leave ⟨i, t⟩ b exit, .drain i] past)
    (he : ∀ y, exit ≠ .suspended y) {g : Instr} (hg : g.turn? = none) :
    Tabled { k with current := none } ([g] ++ [.drain i]) past := by
  have hb : (Instr.leave ⟨i, t⟩ b exit).begun? = none := by
    cases exit with
    | suspended y => exact absurd rfl (he y)
    | _ => rfl
  have h' : Tabled { k with current := none } [.drain i] past :=
    (h.tail hb rfl).congr rfl rfl rfl
  refine h'.append fun y hy => ?_
  rw [List.mem_singleton.1 hy]
  exact .of_turn hg

/-- Everything stays in order when the step of a task is over. -/
theorem Does.sound_leave {b : Body} {exit : Exit} (h : Does i past (.leave ⟨i, t⟩ b exit) k k' G D es)
    (hcur : k.current = some t) (ho : Orderly i k [.leave ⟨i, t⟩ b exit, .drain i])
    (hT : Tabled k [.leave ⟨i, t⟩ b exit, .drain i] past) :
    Orderly i k' (G ++ [.drain i]) ∧ Tabled k' (G ++ [.drain i]) (es.reverse ++ past) := by
  obtain ⟨ht, p₀, hp₀⟩ := ho.driver hcur
  have hrel := ho.frames _ List.mem_cons_self
  cases h with
  | @leaveSuspended _ _ _ y =>
    have hl : k.Live t := hrel
    have hf : Core.Places fun p =>
        { p with hasBody := true, pending := some y, status := .suspended } :=
      fun _ => ⟨rfl, rfl, rfl⟩
    refine ⟨ho.left hcur rfl rfl rfl ⟨rfl, [], by simp [Core.park, Core.alter]⟩ rfl rfl hf ?_ ?_
      (Or.inl hl), hT.park ht ⟨p₀, hp₀⟩⟩
    · intro p hp
      obtain ⟨q, hq, hlive⟩ := hl
      cases hp.symm.trans hq
      obtain ⟨-, -, w, hw, hwt, hwl⟩ := hT.frames _ List.mem_cons_self
      refine ⟨fun _ => ⟨hlive, ?_⟩, fun h => by cases h⟩
      exact .parked rfl rfl rfl (ht.2 p hp).2.1 hw hwt hwl
    · intro g hg
      cases hg
  | @leaveYielded _ _ _ signal =>
    have hl : k.Live t := hrel
    have hf : Core.Places fun p => { p with hasBody := true, pending := none, status := .suspended } :=
      fun _ => ⟨rfl, rfl, rfl⟩
    refine ⟨ho.left hcur rfl rfl rfl ⟨rfl, [.resume t signal], ?_⟩ rfl rfl hf ?_ ?_ (Or.inl hl), ?_⟩
    · simp [Core.park, Core.alter, Core.schedule]
    · intro p hp
      obtain ⟨q, hq, hlive⟩ := hl
      cases hp.symm.trans hq
      refine ⟨fun _ => ⟨hlive, ?_⟩, fun h => by cases h⟩
      have howe : Reaction.resume t signal ∈ k.agenda.fresh ++ [.resume t signal] := by simp
      exact .yielded rfl rfl rfl (ht.2 p hp).2.1 (Or.inr (Or.inl howe))
    · intro g hg
      cases hg
    · have h' : Tabled (k.alter t fun p =>
          { p with hasBody := true, pending := none, status := .suspended }) [.drain i] past :=
        (hT.tail rfl rfl).unpark (fun hp hy => hT.unparked ht hp hy) fun _ => Or.inl rfl
      exact h'.congr rfl rfl rfl
  | leaveFinished | leaveEnded =>
    have hl : k.Live t := hrel
    exact ⟨ho.closed hcur hl rfl ht, hT.leave (fun y h => by cases h) rfl⟩
  | leaveFailed =>
    have hl : k.Live t := hrel
    exact ⟨ho.closed hcur hl rfl trivial, hT.leave (fun y h => by cases h) rfl⟩
  | leaveHalted =>
    have hl : ¬ k.Live t := hrel
    have hd := ht.stripped hl
    refine ⟨ho.left (f := fun p => p) hcur ?_ rfl rfl ⟨rfl, [], by simp⟩ rfl rfl
      (fun _ => ⟨rfl, rfl, rfl⟩) ?_ ?_ (Or.inr List.mem_cons_self),
      hT.leave (fun y h => by cases h) rfl⟩
    · rw [k.alter_id]
    · intro p hp
      refine ⟨fun hlive => absurd ⟨p, hp, hlive⟩ hl, fun _ => Or.inr ⟨_, List.mem_cons_self, ?_⟩⟩
      exact List.mem_cons_self
    · intro g hg
      rw [List.mem_singleton.1 hg]
      exact hd

/-! ## The driver, and the end of tasks -/

/-- A move outside of steps, as the table sees it. -/
theorem Tabled.step (h : Tabled k (x :: F) past) (hx : x.turn? = none)
    (hk : Tabled k F past → Tabled k' F past) (hG : ∀ y ∈ G, y.turn? = none) (hes : Silent es) :
    Tabled k' (G ++ F) (es.reverse ++ past) := by
  have hp := Instr.IsPlain.of_turn hx
  exact ((hk (h.tail hp.begun hp.nests)).append fun y hy => .of_turn (hG y hy)).events hes

theorem Buries.silent {outcome : Outcome} {c : Option Cascade}
    (h : Buries past k t outcome k' c es) : Silent es := by
  cases h with
  | absent => exact .nil
  | gone _ _ hq => exact .cons (fun _ _ _ _ h => by cases h) hq.silent

theorem Buries.tabled {outcome : Outcome} {c : Option Cascade}
    (h : Buries past k t outcome k' c es) (hT : Tabled k F past)
    (ht : ∀ p, k.posture t = some p → p.hasBody = false) : Tabled k' F past := by
  cases h with
  | absent => exact hT
  | gone => exact (hT.bury t ht).congr rfl rfl rfl

/-- A frame of the driver that no task depends on, and that leaves tasks and effects alone. -/
theorem Sound.work (ho : Orderly i k (x :: F)) (hT : Tabled k (x :: F) past) (hx : x.turn? = none)
    (hfree : x.IsFree) (hnone : x.StepsNone i) (hk : k.Unmoved k') (hw : k'.waits = k.waits)
    (hn : k'.nextEffect = k.nextEffect) (hg : k.Grows k')
    (hG : ∀ y ∈ G, y.turn? = none ∧ y.Relies k) (hes : Silent es) :
    Orderly i k' (G ++ F) ∧ Tabled k' (G ++ F) (es.reverse ++ past) := by
  refine ⟨ho.unmoved hk hfree (fun g hm => (hG g hm).2) (fun _ => Core.Roots.of_waits hw) ?_, ?_⟩
  · intro u p _ _ _ _ r hr howe
    exact howe.grow hg fun he => absurd he (hnone u r hr)
  · exact hT.step hx (fun h => h.congr hk.posture hw hn) (fun y hy => (hG y hy).1) hes

theorem Instr.isFree_of_job (h : x.IsJob ∨ x.Calls) : x.IsFree := by
  cases x with
  | emit | forwarded | schedule =>
    exact ⟨rfl, fun _ => id, fun _ => id, fun _ h => by cases h⟩
  | _ => exact (h.elim id id : False).elim

theorem Instr.stepsNone_of_ne (h : ∀ r, x ≠ .perform i (.reaction r)) : x.StepsNone i :=
  fun _ r _ => h r

theorem Core.grows_schedule (k : Core) (rs : List Reaction) : k.Grows (k.schedule rs) :=
  ⟨rfl, rs, rfl⟩

/-- The next job is taken from the agenda. -/
theorem Owes.next {agenda : Agenda} {job : Job} {r : Reaction}
    (h : k.agenda.next? = some (job, agenda)) (ho : Owes i k [.drain i] r) :
    Owes i { k with agenda } [.perform i job, .drain i] r := by
  unfold Agenda.next? at h
  have hm : r ∈ k.agenda.flush.stack := by
    rcases ho with ho | ho | ho
    · exact List.mem_append_right _ ho
    · exact List.mem_append_left _ ho
    · cases List.mem_singleton.1 ho
  simp only at h
  split at h
  · rename_i r' rest hs
    cases h
    rw [hs] at hm
    rcases List.mem_cons.1 hm with rfl | hm
    · exact Or.inr (Or.inr List.mem_cons_self)
    · exact Or.inl hm
  · rename_i hs
    rw [hs] at hm
    cases hm

theorem Agenda.not_owed {r : Reaction} (h : k.agenda.next? = none) : ¬ SagaMachine.Owes i k [.drain i] r := by
  have hf := Agenda.flush_of_next?_eq_none h
  have hs : k.agenda.fresh ++ k.agenda.stack = [] := congrArg Agenda.stack hf
  obtain ⟨h1, h2⟩ := List.append_eq_nil_iff.1 hs
  rintro (ho | ho | ho)
  · rw [h2] at ho
    cases ho
  · rw [h1] at ho
    cases ho
  · cases List.mem_singleton.1 ho

/-- The step of a task begins in place of the job that asked for it. -/
theorem Begins.sound {k₀ : Core} {expected : Option EffectId} {signal : Option Signal}
    (hb : Begins i k₀ t expected signal k' G) (ho : Orderly i k [x, .drain i])
    (hT : Tabled k₀ [.drain i] past) (hcur : k.current = none) (hk : k.Unmoved k₀)
    (hg : k.Grows k₀) (hx : x.IsFree)
    (howes : ∀ {u r}, r.Steps u → x = .perform i (.reaction r) → u = t ∧ expected = none)
    (hroots : ∀ {u p y w}, k.posture u = some p → p.pending = some y → k.waits.get? y = some w →
      w.task = u → w.link = .task → (u = t ∧ expected = some y) ∨
        ∃ w', k₀.waits.get? y = some w' ∧ w'.task = u ∧ w'.link = .task)
    (hgone : ∀ {y}, expected = some y → k₀.waits.get? y = none) (hes : Silent es) :
    Orderly i k' (G ++ [.drain i]) ∧ Tabled k' (G ++ [.drain i]) (es.reverse ++ past) :=
  ⟨hb.orderly ho hk hg hx hcur howes hroots, (hb.tabled hT hgone).events hes⟩

theorem Instr.isFree_perform (job : Job) : (Instr.perform i job).IsFree :=
  ⟨rfl, fun _ => id, fun _ => id, fun _ h => by cases h⟩

/-- A frame of the driver leaves everything in order. -/
theorem Does.sound_driver (h : Does i past x k k' G D es) (hx : x.turn? = none)
    (hd : x = .drain i ∨ (∃ job, x = .perform i job) ∨ x.IsJob ∨ x.Calls)
    (hs : Stack i k.current (x :: F)) (ho : Orderly i k (x :: F)) (hT : Tabled k (x :: F) past) :
    Orderly i k' (G ++ F) ∧ Tabled k' (G ++ F) (es.reverse ++ past) := by
  cases h with
  | rest h =>
    obtain ⟨hcur, rfl⟩ := hs.of_drain
    have hfree : (Instr.drain i).IsFree := ⟨rfl, fun _ => id, fun _ => id, fun _ h => by cases h⟩
    refine ⟨ho.unmoved (G := []) ⟨rfl, rfl, rfl, rfl⟩ hfree ?_ (fun _ => Core.Roots.of_waits rfl) ?_, ?_⟩
    · intro g hg
      cases hg
    · intro u p _ _ _ _ r _ howe
      exact absurd howe (Agenda.not_owed h)
    · exact hT.step rfl (fun h => h.congr rfl rfl rfl) (fun y hy => by cases hy) .nil
  | @next _ job agenda h =>
    obtain ⟨hcur, rfl⟩ := hs.of_drain
    have hfree : (Instr.drain i).IsFree := ⟨rfl, fun _ => id, fun _ => id, fun _ h => by cases h⟩
    refine ⟨ho.unmoved (G := [.perform i job, .drain i]) ⟨rfl, rfl, rfl, rfl⟩ hfree ?_
      (fun _ => Core.Roots.of_waits rfl) ?_, ?_⟩
    · intro g hg
      simp only [List.mem_cons, List.not_mem_nil, or_false] at hg
      rcases hg with rfl | rfl <;> trivial
    · intro u p _ _ _ _ r _ howe
      exact howe.next h
    · refine hT.step rfl (fun h => h.congr rfl rfl rfl) (fun y hy => ?_) .nil
      simp only [List.mem_cons, List.not_mem_nil, or_false] at hy
      rcases hy with rfl | rfl <;> rfl
  | start h =>
    obtain ⟨hcur, rfl⟩ := hs.of_works trivial
    refine h.sound ho (hT.tail rfl rfl) hcur ⟨rfl, rfl, rfl, rfl⟩ (.refl _) (Instr.isFree_perform _) ?_ ?_ ?_
      .nil
    · intro u r hr he
      cases he
      exact ⟨hr.symm, rfl⟩
    · exact fun _ _ hw ht hl => Or.inr ⟨_, hw, ht, hl⟩
    · intro y hy
      cases hy
  | resume h =>
    obtain ⟨hcur, rfl⟩ := hs.of_works trivial
    refine h.sound ho (hT.tail rfl rfl) hcur ⟨rfl, rfl, rfl, rfl⟩ (.refl _) (Instr.isFree_perform _) ?_ ?_ ?_
      .nil
    · intro u r hr he
      cases he
      exact ⟨hr.symm, rfl⟩
    · exact fun _ _ hw ht hl => Or.inr ⟨_, hw, ht, hl⟩
    · intro y hy
      cases hy
  | @settle _ y signal hn h =>
    obtain ⟨hcur, rfl⟩ := hs.of_works trivial
    obtain ⟨h1, h2, -⟩ := (hT.tail rfl rfl).settle hn signal
    refine ⟨ho.unmoved (G := []) ⟨rfl, rfl, rfl, rfl⟩ (Instr.isFree_perform _) ?_ ?_ ?_,
      h1.events (Silent.passages _)⟩
    · intro g hg
      cases hg
    · intro u p z w _ _ _ _ hw ht hl
      rcases h2 hw hl with ⟨u', hu', -⟩ | ⟨w', hw', ht', hl'⟩
      · rw [h] at hu'
        cases hu'
      · exact ⟨w', hw', ht'.trans ht, hl'⟩
    · intro u p _ _ _ _ r hr howe
      refine howe.grow (.of_eq rfl) fun he => ?_
      cases he
      exact hr.elim
  | @wake _ y signal u _ _ hn h hb =>
    obtain ⟨hcur, rfl⟩ := hs.of_works trivial
    obtain ⟨h1, h2, h3⟩ := (hT.tail rfl rfl).settle hn signal
    refine hb.sound ho h1 hcur ⟨rfl, rfl, rfl, rfl⟩ (.of_eq rfl) (Instr.isFree_perform _) ?_ ?_ ?_
      (.passages _)
    · intro v r hr he
      cases he
      exact hr.elim
    · intro v p z w _ _ hw ht hl
      rcases h2 hw hl with ⟨u', hu', he, ht'⟩ | ⟨w', hw', ht', hl'⟩
      · rw [h] at hu'
        cases hu'
        exact Or.inl ⟨ht.symm.trans ht'.symm, congrArg some he⟩
      · exact Or.inr ⟨w', hw', ht'.trans ht, hl'⟩
    · intro z hz
      cases hz
      exact (h3 h).1
  | @errand _ e _ rs _ hG hset hq =>
    refine Sound.work ho hT rfl (Instr.isFree_perform _) ?_ ⟨rfl, rfl, rfl, rfl⟩ rfl rfl
      (k.grows_schedule rs) ?_ hq.silent
    · exact Instr.stepsNone_of_ne fun r he => by cases he
    · intro y hy
      rcases hG with rfl | ⟨g, rfl, hg⟩
      · cases hy
      · rw [List.mem_singleton.1 hy]
        cases g with
        | emit | forwarded | schedule => exact ⟨rfl, trivial⟩
        | _ => exact hg.elim
  | @schedule _ r hset =>
    refine Sound.work (G := []) ho hT rfl (Instr.isFree_of_job (Or.inl trivial)) ?_
      ⟨rfl, rfl, rfl, rfl⟩ rfl rfl (k.grows_schedule [r]) (fun y hy => by cases hy) .nil
    exact Instr.stepsNone_of_ne fun r he => by cases he
  | @emit _ a sender _ hq =>
    have hfree : (Instr.emit i a sender).IsFree := by
      refine Instr.isFree_of_job ?_
      cases sender with
      | caller => exact Or.inr trivial
      | _ => exact Or.inl trivial
    refine Sound.work ho hT rfl hfree ?_ ⟨rfl, rfl, rfl, rfl⟩ rfl rfl (.refl _) ?_ hq.silent
    · exact Instr.stepsNone_of_ne fun r he => by cases he
    · intro y hy
      rw [List.mem_singleton.1 hy]
      exact ⟨rfl, trivial⟩
  | @forwarded _ a sender rs _ hc hset hq =>
    have hfree : (Instr.forwarded i a sender).IsFree := by
      refine Instr.isFree_of_job ?_
      cases sender with
      | caller => exact Or.inr trivial
      | _ => exact Or.inl trivial
    refine Sound.work (G := []) ho hT rfl hfree ?_ ⟨rfl, rfl, rfl, rfl⟩ rfl rfl
      (k.grows_schedule rs) (fun y hy => by cases hy) hq.silent
    exact Instr.stepsNone_of_ne fun r he => by cases he
  | @forwardedCall _ a site rs _ hset hq =>
    refine Sound.work (G := [.drain i]) ho hT rfl (Instr.isFree_of_job (Or.inr trivial)) ?_
      ⟨rfl, rfl, rfl, rfl⟩ rfl rfl (k.grows_schedule rs) ?_ hq.silent
    · exact Instr.stepsNone_of_ne fun r he => by cases he
    · intro y hy
      rw [List.mem_singleton.1 hy]
      exact ⟨rfl, trivial⟩
  | returnedLate | returned | returnedHeld | abortLate | abort | abortHalts | abortDone | conclude
  | cascadeAbort | cascadeLate | cascadeComplete | cancelLate | cancel | cancelledAll
  | cancelledLate | cancelEach | cancelHalts | cancelOne =>
    rcases hd with hd | ⟨job, hd⟩ | hd | hd
    · cases hd
    · cases hd
    · exact hd.elim
    · exact hd.elim
  | _ => cases hx

/-- A frame of a task that is not there, or not live any more, is passed over. -/
theorem Sound.late (ho : Orderly i k (x :: F)) (hT : Tabled k (x :: F) past) (hx : x.turn? = none)
    (hnone : x.StepsNone i) (hconc : ∀ turn, x ≠ .conclude turn) (hu : ∀ y ∈ F, ¬ y.Urgent)
    (hG : ∀ y ∈ G, y.turn? = none ∧ y.Relies k)
    (hcl : ∀ {u p}, k.posture u = some p → p.status.isTerminal = false → p.result = none →
      x.Closes u → ∃ g ∈ G, g.Closes u)
    (htn : ∀ {u p}, k.posture u = some p → p.status.isTerminal = false → p.result ≠ none →
      x.Tends u → ∃ g ∈ G, g.Tends u)
    (hfi : ∀ {u p}, k.posture u = some p → u ∈ x.finishes → ∃ g ∈ G, u ∈ g.finishes) :
    Orderly i k (G ++ F) ∧ Tabled k (G ++ F) past := by
  have hages : k.Ages k := ⟨id, id, id⟩
  refine ⟨ho.carried rfl rfl (fun {u p} hp => ?_) ?_ rfl ?_, ?_⟩
  · exact .of_head hnone (.refl _) (Core.Roots.of_waits rfl) id hcl htn fun hm => Or.inr (hfi hp hm)
  · intro y hy
    rcases List.mem_append.1 hy with hy | hy
    · exact (hG y hy).2
    · exact hages.relies ho.frames hu y hy
  · exact ho.halted_ages hages rfl rfl hconc
  · have h : Tabled k (G ++ F) ([].reverse ++ past) :=
      hT.step hx id (fun y hy => (hG y hy).1) .nil
    exact h

theorem Core.not_live_iff : ¬ k.Live t ↔ ∀ p, k.posture t = some p → p.status.isTerminal = true := by
  constructor
  · intro h p hp
    cases hs : p.status.isTerminal with
    | true => rfl
    | false => exact absurd ⟨p, hp, hs⟩ h
  · rintro h ⟨p, hp, hl⟩
    rw [h p hp] at hl
    cases hl

/-- A task that holds its value has no body. -/
theorem InOrder.of_result {p : Posture} {v : Value} (h : InOrder i k F t p)
    (hl : p.status.isTerminal = false) (hv : p.result = some v) :
    p.hasBody = false ∧ ∀ {cur}, k.current = some cur → k.Afoot cur → k.posture t = some p →
      cur ≠ t := by
  refine ⟨?_, fun {cur} _ ha hp hct => ?_⟩
  · cases h.standing hl with
    | created _ _ _ hr | yielded _ _ _ hr | parked _ _ _ hr | running _ _ hr =>
      rw [hv] at hr
      cases hr
    | waiting hb => exact hb
  · subst hct
    rw [(ha.2 p hp).2.1] at hv
    cases hv

/-- A body returned: its task holds the value. -/
theorem Orderly.returned {v : Value} {f : Posture → Posture}
    (h : Orderly i k [.returned ⟨i, t⟩ v, .drain i]) (hcur : k.current = none) (hf : Core.Places f)
    (hself : ∀ p, k.posture t = some p → Settled i (k.alter t f) (G ++ [.drain i]) t p (f p))
    (hG : ∀ g ∈ G, ∀ k, g.Relies k) : Orderly i (k.alter t f) (G ++ [.drain i]) := by
  refine h.altered rfl rfl hf hself (fun u hut => ?_) ?_ ?_ ?_
  · refine .of_head ?_ (.of_eq rfl) (Core.Roots.of_waits rfl) id ?_ ?_ ?_
    · exact Instr.stepsNone_of_ne fun r he => by cases he
    · intro p _ _ _ hc
      exact absurd hc.symm hut
    · intro p _ _ _ hc
      exact hc.elim
    · intro hm
      cases hm
  · intro y hy
    rcases List.mem_append.1 hy with hy | hy
    · exact hG y hy _
    · rw [List.mem_singleton.1 hy]
      trivial
  · intro u hc
    have hc : k.current = some u := hc
    rw [hcur] at hc
    cases hc
  · intro hh
    rcases h.halted hh with ⟨u, hc, -⟩ | ⟨turn, hm⟩
    · rw [hcur] at hc
      cases hc
    · simp only [List.mem_cons, List.not_mem_nil, or_false] at hm
      rcases hm with hm | hm <;> cases hm

/-- The cascade after the end of a task takes care of its parent. -/
theorem Instr.exists_cascade {c : Option Cascade} {d : Cascade} (h : c = some d) :
    ∃ g ∈ c.toList.map (Instr.cascade i), g.Tends d.task := by
  subst h
  exact ⟨_, List.mem_cons_self, rfl⟩

theorem Instr.of_mem_cascades {cs : List Cascade} {y : Instr} (h : y ∈ cs.map (Instr.cascade i)) :
    y.turn? = none ∧ ∀ k, y.Relies k := by
  obtain ⟨c, -, rfl⟩ := List.mem_map.1 h
  exact ⟨rfl, fun _ => trivial⟩

/-- The frames that return, fail and record tasks leave everything in order. -/
theorem Does.sound_end (h : Does i past x k k' G D es) (hx : x.turn? = none)
    (hd : x ≠ .drain i ∧ (∀ job, x ≠ .perform i job) ∧ ¬ x.IsJob ∧ ¬ x.Calls)
    (hu : ∀ y ∈ F, ¬ y.Urgent) (hs : Stack i k.current (x :: F)) (ho : Orderly i k (x :: F))
    (hT : Tabled k (x :: F) past) :
    Orderly i k' (G ++ F) ∧ Tabled k' (G ++ F) (es.reverse ++ past) := by
  have hT' := hT.tail (Instr.IsPlain.of_turn hx).begun (Instr.IsPlain.of_turn hx).nests
  have hdriver : ∀ {u}, k.current = some u → k.Afoot u := fun hc => (ho.driver hc).1
  cases h with
  | returnedLate h | abortLate h =>
    have hlate := Core.not_live_iff.1 h
    refine Sound.late (G := []) ho hT rfl ?_ ?_ hu (fun y hy => by cases hy) ?_ ?_ ?_
    · exact Instr.stepsNone_of_ne fun r he => by cases he
    · intro turn he
      cases he
    · rintro u p hp hl - rfl
      rw [hlate p hp] at hl
      cases hl
    · intro u p hp hl _ hc
      first
        | exact hc.elim
        | (cases hc
           rw [hlate p hp] at hl
           cases hl)
    · intro u p _ hm
      cases hm
  | cascadeAbort =>
    refine Sound.late ho hT rfl ?_ ?_ hu ?_ ?_ ?_ ?_
    · exact Instr.stepsNone_of_ne fun r he => by cases he
    · intro turn he
      cases he
    · intro y hy
      rw [List.mem_singleton.1 hy]
      exact ⟨rfl, trivial⟩
    · intro u p _ _ _ hc
      exact ⟨_, List.mem_cons_self, hc⟩
    · intro u p _ _ _ hc
      exact ⟨_, List.mem_cons_self, hc⟩
    · intro u p _ hm
      cases hm
  | cascadeLate h =>
    refine Sound.late (G := []) ho hT rfl ?_ ?_ hu (fun y hy => by cases hy) ?_ ?_ ?_
    · exact Instr.stepsNone_of_ne fun r he => by cases he
    · intro turn he
      cases he
    · intro u p _ _ _ hc
      exact hc.elim
    · rintro u p hp hl hr rfl
      rcases h p hp with h | h
      · rw [h] at hl
        cases hl
      · exact absurd h hr
    · intro u p _ hm
      cases hm
  | cancelLate h =>
    refine Sound.late (G := []) ho hT rfl ?_ ?_ hu (fun y hy => by cases hy) ?_ ?_ ?_
    · exact Instr.stepsNone_of_ne fun r he => by cases he
    · intro turn he
      cases he
    · intro u p _ _ _ hc
      exact hc.elim
    · intro u p _ _ _ hc
      exact hc.elim
    · intro u p _ hm
      cases hm
  | @cancelledAll _ cascades =>
    refine Sound.late ho hT rfl ?_ ?_ hu ?_ ?_ ?_ ?_
    · exact Instr.stepsNone_of_ne fun r he => by cases he
    · intro turn he
      cases he
    · intro y hy
      obtain ⟨c, -, rfl⟩ := List.mem_map.1 hy
      exact ⟨rfl, trivial⟩
    · intro u p _ _ _ hc
      exact hc.elim
    · rintro u p _ _ _ ⟨c, hc, hcu⟩
      exact ⟨_, List.mem_map_of_mem hc, hcu⟩
    · intro u p _ hm
      cases hm
  | @cancelledLate _ t rest cascades h =>
    refine Sound.late ho hT rfl ?_ ?_ hu ?_ ?_ ?_ ?_
    · exact Instr.stepsNone_of_ne fun r he => by cases he
    · intro turn he
      cases he
    · intro y hy
      rw [List.mem_singleton.1 hy]
      refine ⟨rfl, fun u hm => ?_⟩
      exact ho.frames _ List.mem_cons_self u (List.mem_cons_of_mem _ hm)
    · intro u p _ _ _ hc
      exact hc.elim
    · intro u p _ _ _ hc
      exact ⟨_, List.mem_cons_self, hc⟩
    · intro u p hp hm
      rcases List.mem_cons.1 hm with rfl | hm
      · rw [h] at hp
        cases hp
      · exact ⟨_, List.mem_cons_self, hm⟩
  | @cancel _ t order h hlive =>
    refine ⟨ho.cancelled hlive hu, ?_⟩
    refine hT.step rfl (fun h => h.cancelAll order) (fun y hy => ?_) .nil
    rw [List.mem_singleton.1 hy]
    rfl
  | @returned _ t v p hp hl hc =>
    obtain ⟨hcur, rfl⟩ := hs.of_works trivial
    have ha : k.Afoot t := ho.frames _ List.mem_cons_self
    refine ⟨ho.returned hcur (fun _ => ⟨rfl, rfl, rfl⟩) ?_ ?_, ?_⟩
    · intro q hq
      cases hp.symm.trans hq
      refine ⟨fun _ => ⟨hl, .waiting (ha.2 p hp).1 rfl (Or.inr ⟨_, List.mem_cons_self, rfl⟩)⟩, ?_⟩
      intro ht
      have ht : p.status.isTerminal = true := ht
      rw [hl] at ht
      cases ht
    · intro y hy
      rw [List.mem_singleton.1 hy]
      exact fun _ => trivial
    · refine hT.step rfl (fun h => h.alter t (fun _ => rfl) fun _ => id) (fun y hy => ?_) .nil
      rw [List.mem_singleton.1 hy]
      rfl
  | @returnedHeld _ t v p hp hl hc =>
    obtain ⟨hcur, rfl⟩ := hs.of_works trivial
    have ha : k.Afoot t := ho.frames _ List.mem_cons_self
    refine ⟨ho.returned (G := []) hcur (fun _ => ⟨rfl, rfl, rfl⟩) ?_ (fun y hy => by cases hy), ?_⟩
    · intro q hq
      cases hp.symm.trans hq
      exact ⟨fun _ => ⟨hl, .waiting (ha.2 p hp).1 rfl (Or.inl ⟨rfl, hc⟩)⟩, fun ht => by cases ht⟩
    · exact hT.step rfl (fun h => h.alter t (fun _ => rfl) fun _ => id) (fun y hy => by cases hy) .nil
  | @abort _ t f p hp hl =>
    obtain ⟨hcur, hF, hs'⟩ := hs.of_ends trivial
    have hstrip := hT'.strip (hcur ▸ hs') hdriver hp
      (f := fun p => { p with status := .aborted, pending := none, hasBody := false }) fun _ => rfl
    have hG : ∀ y ∈ p.children.map (Instr.cancel i) ++ [.abortDone ⟨i, t⟩ f (decide (k.current = some t))],
        y.turn? = none := by
      intro y hy
      rcases List.mem_append.1 hy with hy | hy
      · obtain ⟨c, -, rfl⟩ := List.mem_map.1 hy
        rfl
      · rw [List.mem_singleton.1 hy]
        rfl
    refine ⟨?_, (hstrip.1.append fun y hy => .of_turn (hG y hy)).events (Silent.passages _)⟩
    refine ho.stripped (fun _ => ⟨rfl, rfl, rfl⟩) ⟨fun _ => rfl, fun _ => rfl, id, fun _ h => by cases h⟩
      (fun _ _ => rfl) (Or.inr ⟨_, List.mem_append_right _ List.mem_cons_self, List.mem_cons_self⟩)
      hstrip.2 ?_ (fun u hut hc => hut hc.symm) (fun u hut hc => absurd hc.symm hut)
      (fun u _ hm => by cases hm) ?_ hu (fun turn he => by cases he)
    · exact Instr.stepsNone_of_ne fun r he => by cases he
    · intro hages y hy
      rcases List.mem_append.1 hy with hy | hy
      · obtain ⟨c, -, rfl⟩ := List.mem_map.1 hy
        trivial
      · rw [List.mem_singleton.1 hy]
        refine ⟨(ho.tasks hp).number, fun q hq => ?_⟩
        have hq : (k.alter t _).posture t = some q := hq
        rw [Core.posture_alter, if_pos rfl, hp] at hq
        cases hq
        exact ⟨rfl, rfl⟩
  | abortHalts => exact hs.not_abortHalts.elim
  | @abortDone _ t f k' c es h =>
    obtain ⟨hcur, hF, hs'⟩ := hs.of_ends trivial
    have hd : k.Stripped t := ho.frames _ List.mem_cons_self
    refine ⟨h.orderly (f := fun p => p) ho ?_ (fun _ => ⟨rfl, rfl, rfl⟩) (by rw [hcur]; simp) ?_
      (fun u _ hc => hc) (fun u _ hc => hc.elim) ?_ (fun d => Instr.exists_cascade)
      (fun _ y hy => (Instr.of_mem_cascades hy).2 _) hu (Or.inr ⟨rfl, fun turn he => by cases he⟩), ?_⟩
    · rw [k.alter_id]
    · exact Instr.stepsNone_of_ne fun r he => by cases he
    · intro u hut hm
      exact absurd (List.mem_singleton.1 hm) hut
    · exact hT.step rfl (fun h' => h.tabled h' fun p hp => (hd.2 p hp).2)
        (fun y hy => (Instr.of_mem_cascades hy).1) h.silent
  | @conclude _ t k' c es h =>
    obtain ⟨hcur, hF, hs'⟩ := hs.of_ends trivial
    have hd : k.Stripped t := ho.frames _ List.mem_cons_self
    refine ⟨h.orderly (f := fun p => p) ho ?_ (fun _ => ⟨rfl, rfl, rfl⟩) (by rw [hcur]; simp) ?_
      (fun u _ hc => hc) (fun u _ hc => hc.elim) ?_ (fun d => Instr.exists_cascade)
      (fun _ y hy => (Instr.of_mem_cascades hy).2 _) hu (Or.inl rfl), ?_⟩
    · rw [k.alter_id]
    · exact Instr.stepsNone_of_ne fun r he => by cases he
    · intro u hut hm
      exact absurd (List.mem_singleton.1 hm) hut
    · exact hT.step rfl (fun h' => h.tabled (h'.congr rfl rfl rfl) fun p hp => (hd.2 p hp).2)
        (fun y hy => (Instr.of_mem_cascades hy).1) h.silent
  | @cascadeComplete _ t p v k' c es hp hl hv h =>
    obtain ⟨hb, hcur⟩ := (ho.tasks hp).of_result hl hv
    refine ⟨h.orderly (f := fun p => { p with result := none }) ho rfl (fun _ => ⟨rfl, rfl, rfl⟩) ?_ ?_
      (fun u _ hc => hc) ?_ (fun u _ hm => by cases hm) (fun d => Instr.exists_cascade)
      (fun _ y hy => (Instr.of_mem_cascades hy).2 _) hu (Or.inr ⟨rfl, fun turn he => by cases he⟩), ?_⟩
    · intro hct
      exact hcur hct (hdriver hct) hp rfl
    · exact Instr.stepsNone_of_ne fun r he => by cases he
    · intro u hut hc
      exact absurd hc.symm hut
    · refine hT.step rfl (fun h' => h.tabled (h'.alter t (fun _ => rfl) fun _ => id) fun q hq => ?_)
        (fun y hy => (Instr.of_mem_cascades hy).1) h.silent
      rw [Core.posture_alter, if_pos rfl, hp] at hq
      cases hq
      exact hb
  | @cancelEach _ t rest cascades p hp =>
    obtain ⟨hcs, hF, hs'⟩ := hs.of_cancelEach
    have hd : ∀ u ∈ t :: rest, k.Doomed u := ho.frames _ List.mem_cons_self
    have hstrip := hT'.strip hs' hdriver hp
      (f := fun p => { p with pending := none, hasBody := false }) fun _ => rfl
    refine ⟨?_, (hstrip.1.append fun y hy => ?_).events (Silent.passages _)⟩
    · refine ho.stripped (fun _ => ⟨rfl, rfl, rfl⟩) ⟨id, fun _ => rfl, id, fun h h' => h h'⟩
        (fun q hq => (hd t List.mem_cons_self).2 q hq) ?_ hstrip.2 ?_ (fun u _ hc => hc)
        (fun u _ hc => ⟨_, List.mem_cons_self, hc⟩) ?_ ?_ hu (fun turn he => by cases he)
      · by_cases hct : k.current = some t
        · exact Or.inl hct
        · refine Or.inr ⟨_, List.mem_cons_self, ?_⟩
          rw [decide_eq_false hct]
          exact List.mem_cons_self
      · exact Instr.stepsNone_of_ne fun r he => by cases he
      · intro u hut hm
        refine ⟨_, List.mem_cons_self, ?_⟩
        rcases List.mem_cons.1 hm with rfl | hm
        · exact absurd rfl hut
        · by_cases hct : k.current = some t
          · rw [decide_eq_true hct]
            exact hm
          · rw [decide_eq_false hct]
            exact List.mem_cons_of_mem _ hm
      · intro hages y hy
        rw [List.mem_singleton.1 hy]
        refine ⟨⟨(hd t List.mem_cons_self).1, fun q hq => ?_⟩, fun u hm => ?_⟩
        · have hq : (k.alter t _).posture t = some q := hq
          rw [Core.posture_alter, if_pos rfl, hp] at hq
          cases hq
          exact ⟨(hd t List.mem_cons_self).2 p hp, rfl⟩
        · exact hages.doomed (hd u (List.mem_cons_of_mem _ hm))
    · rw [List.mem_singleton.1 hy]
      exact .of_turn rfl
  | @cancelHalts _ t rest cascades =>
    obtain ⟨⟨hcur, hcs⟩, hF, hs'⟩ := hs.of_cancelOne
    have hcur : k.current = some t := of_decide_eq_true hcur.symm
    obtain ⟨hd, hrest⟩ : k.Stripped t ∧ ∀ u ∈ rest, k.Doomed u := ho.frames _ List.mem_cons_self
    refine ⟨ho.carried rfl rfl (fun {u p} hp => ?_) ?_ rfl ?_, ?_⟩
    · refine .of_head ?_ (.of_eq rfl) (Core.Roots.of_waits rfl) id (fun _ _ _ hc => hc.elim)
        (fun _ _ _ hc => ⟨_, List.mem_cons_self, hc⟩) fun hm => Or.inr ⟨_, List.mem_cons_self, hm⟩
      exact Instr.stepsNone_of_ne fun r he => by cases he
    · have hages : k.Ages { k with halted := some .cancelled } := ⟨id, id, id⟩
      intro y hy
      rcases List.mem_append.1 hy with hy | hy
      · rw [List.mem_singleton.1 hy]
        exact hrest
      · exact hages.relies ho.frames hu y hy
    · exact fun _ => Or.inl ⟨t, hcur, hd.doomed.not_live⟩
    · refine hT.step rfl (fun h => h.congr rfl rfl rfl) (fun y hy => ?_) .nil
      rw [List.mem_singleton.1 hy]
      rfl
  | @cancelOne _ t rest cascades k' c es h =>
    obtain ⟨⟨hcur, hcs⟩, hF, hs'⟩ := hs.of_cancelOne
    have hcur : k.current ≠ some t := of_decide_eq_false hcur.symm
    obtain ⟨hd, hrest⟩ : k.Stripped t ∧ ∀ u ∈ rest, k.Doomed u := ho.frames _ List.mem_cons_self
    refine ⟨h.orderly (f := fun p => p) ho ?_ (fun _ => ⟨rfl, rfl, rfl⟩) hcur ?_
      (fun u _ hc => hc) ?_ ?_ ?_ ?_ hu (Or.inr ⟨rfl, fun turn he => by cases he⟩), ?_⟩
    · rw [k.alter_id]
    · exact Instr.stepsNone_of_ne fun r he => by cases he
    · rintro u - ⟨d, hm, hdu⟩
      exact ⟨_, List.mem_cons_self, d, List.mem_append_left _ hm, hdu⟩
    · intro u hut hm
      rcases List.mem_cons.1 hm with rfl | hm
      · exact absurd rfl hut
      · exact ⟨_, List.mem_cons_self, hm⟩
    · rintro d rfl
      exact ⟨_, List.mem_cons_self, d, List.mem_append_right _ List.mem_cons_self, rfl⟩
    · intro hages y hy
      rw [List.mem_singleton.1 hy]
      exact fun u hm => hages.doomed (hrest u hm)
    · refine hT.step rfl (fun h' => h.tabled h' fun p hp => (hd.2 p hp).2) (fun y hy => ?_) h.silent
      rw [List.mem_singleton.1 hy]
      rfl
  | rest | next => exact absurd rfl hd.1
  | start | resume | settle | wake | errand => exact absurd rfl (hd.2.1 _)
  | schedule => exact absurd trivial hd.2.2.1
  | @emit _ _ sender | @forwarded _ _ sender =>
    cases sender with
    | caller => exact absurd trivial hd.2.2.2
    | _ => exact absurd trivial hd.2.2.1
  | forwardedCall => exact absurd trivial hd.2.2.2
  | _ => cases hx

/-- Whatever a frame does leaves everything in order. -/
theorem Does.sound (h : Does i past x k k' G D es) (hu : ∀ y ∈ F, ¬ y.Urgent)
    (hs : Stack i k.current (x :: F)) (ho : Orderly i k (x :: F)) (hT : Tabled k (x :: F) past) :
    Orderly i k' (G ++ F) ∧ Tabled k' (G ++ F) (es.reverse ++ past) := by
  cases hx : x.turn? with
  | some t =>
    obtain ⟨hcur, rfl⟩ := hs.of_turn hx
    by_cases hl : ∃ b exit, x = .leave ⟨i, t⟩ b exit
    · obtain ⟨b, exit, rfl⟩ := hl
      exact h.sound_leave hcur ho hT
    · exact h.sound_turn hx (fun b exit he => hl ⟨b, exit, he⟩) hcur ho hT
  | none =>
    by_cases hd : x = .drain i ∨ (∃ job, x = .perform i job) ∨ x.IsJob ∨ x.Calls
    · exact h.sound_driver hx hd hs ho hT
    · simp only [not_or, not_exists] at hd
      exact h.sound_end hx hd hu hs ho hT

/-! ## User code -/

/-- The driver starts, or is at work already. -/
theorem Drives.sound {work : List Instr} (h : Drives i k work k' G) (ho : Orderly i k F)
    (hT : Tabled k F past) (hw : ∀ y ∈ work, y.turn? = none ∧ ∀ k, y.Relies k) :
    Orderly i k' (G ++ F) ∧ Tabled k' (G ++ F) past := by
  cases h with
  | within =>
    exact ⟨ho.extend ⟨rfl, rfl, rfl, rfl⟩ rfl (.refl _) fun y hy => (hw y hy).2 _,
      hT.append fun y hy => .of_turn (hw y hy).1⟩
  | starts =>
    have hG : ∀ y ∈ work ++ [Instr.drain i], y.turn? = none ∧ ∀ k, y.Relies k := by
      intro y hy
      rcases List.mem_append.1 hy with hy | hy
      · exact hw y hy
      · rw [List.mem_singleton.1 hy]
        exact ⟨rfl, fun _ => trivial⟩
    have hT' : Tabled { k with driving := true } F past := hT.congr rfl rfl rfl
    exact ⟨ho.extend ⟨rfl, rfl, rfl, rfl⟩ rfl (.of_eq rfl) fun y hy => (hG y hy).2 _,
      hT'.append fun y hy => .of_turn (hG y hy).1⟩

/-- User code leaves everything in order. -/
theorem Intervenes.sound (h : Intervenes i past k k' G es) (hu : ∀ y ∈ F, ¬ y.Urgent)
    (ho : Orderly i k F) (hT : Tabled k F past) :
    Orderly i k' (G ++ F) ∧ Tabled k' (G ++ F) (es.reverse ++ past) := by
  cases h with
  | quietly hq => exact ⟨ho, hT.events hq.silent⟩
  | spawns h =>
    have ho' : Orderly i ((k.create none false).schedule [.start k.nextTask]) F :=
      ho.created (fun u hu => by cases hu) fun y hy => Or.inl (hu y hy)
    have hT' : Tabled ((k.create none false).schedule [.start k.nextTask]) F past :=
      (hT.create (fun hp => (ho.tasks hp).number) none false).congr rfl rfl rfl
    obtain ⟨h1, h2⟩ := h.sound ho' hT' fun y hy => by cases hy
    exact ⟨h1, h2.events (Silent.cons (fun _ _ _ _ h => by cases h) .nil)⟩
  | @settles rs _ _ _ hset h hq =>
    have ho' : Orderly i (k.schedule rs) ([] ++ F) :=
      ho.extend ⟨rfl, rfl, rfl, rfl⟩ rfl (k.grows_schedule rs) fun y hy => by cases hy
    have hT' : Tabled (k.schedule rs) F past := hT.congr rfl rfl rfl
    obtain ⟨h1, h2⟩ := h.sound ho' hT' fun y hy => by cases hy
    exact ⟨h1, h2.events hq.silent⟩
  | cancels h =>
    refine h.sound ho hT fun y hy => ?_
    rw [List.mem_singleton.1 hy]
    exact ⟨rfl, fun _ => trivial⟩
  | @queues e _ hd hq =>
    have hT' : Tabled (k.grow [] [e]) F past := hT.congr rfl rfl rfl
    refine ⟨?_, hT'.events hq.silent⟩
    exact ho.extend (G := []) ⟨rfl, rfl, rfl, rfl⟩ rfl ⟨rfl, [], rfl⟩ fun y hy => by cases hy
  | sends =>
    have hT' : Tabled { k with driving := true } F past := hT.congr rfl rfl rfl
    refine ⟨ho.extend ⟨rfl, rfl, rfl, rfl⟩ rfl (.of_eq rfl) fun y hy => ?_, hT'.append fun y hy => ?_⟩
    · rw [List.mem_singleton.1 hy]
      trivial
    · rw [List.mem_singleton.1 hy]
      exact .of_turn rfl

/-- Every move keeps the invariant. -/
theorem Sound.move {v v' : View} (hv : Sound i v) (h : Moves i v v') : Sound i v' := by
  suffices hs : Orderly i v'.core v'.frames ∧
      (v'.alive = true → Tabled v'.core v'.frames v'.past) from ⟨hv.framed.move h, hs.1, hs.2⟩
  cases h with
  | @does alive k F D past x k' G D' es h hu =>
    have halive : alive = true := by
      cases alive with
      | true => rfl
      | false => cases (hv.framed.dead rfl).1
    have := h.sound hu hv.framed.stack hv.orderly (hv.tabled halive)
    exact ⟨this.1, fun _ => this.2⟩
  | intervenes h hu =>
    have := h.sound hu hv.orderly (hv.tabled rfl)
    exact ⟨this.1, fun _ => this.2⟩
  | still => exact ⟨hv.orderly, hv.tabled⟩
  | drops hu =>
    refine ⟨hv.orderly, fun ha => ?_⟩
    exact Tabled.events (hv.tabled ha) (Silent.cons (fun _ _ _ _ h => by cases h) .nil)
  | dies hD => exact ⟨.start i, fun ha => by cases ha⟩

end

end SagaMachine
