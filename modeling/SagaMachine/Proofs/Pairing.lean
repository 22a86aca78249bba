import Mathlib.Data.List.Nodup
import SagaMachine.Proofs.Quiescence
import SagaMachine.Proofs.Replies

/-!
# Answers and effects in pairs

In every run, and for every task, the events make a dialogue: the body is polled first with
nothing, and each later poll passes what the effect that it asked for last settled with. No
effect is answered twice, no answer is skipped or given to another effect, whichever way it took
and whatever was still due when it came; and an effect that ended is answered by dropping the
body.

Main statement: `Scenario.Visits.answers_paired`.
-/

namespace SagaMachine

section

variable {i : MiddlewareId} {k k' : Core} {F G : List Instr} {D : List TaskId} {t u : TaskId}
  {d : Talk} {past es : List Event}

/-! ## User code -/

/-- The driver starts, or is at work already. -/
theorem Drives.voiced {work : List Instr} (h : Drives i k work k' G) (hv : Voiced i t d k F D)
    (hw : ∀ y ∈ work, y.turn? = none ∧ y.reaction? = none) : Voiced i t d k' (G ++ F) D := by
  have hreframe : ∀ G : List Instr, (∀ y ∈ G, y.turn? = none ∧ y.reaction? = none) →
      Voiced i t d k (G ++ F) D := fun G hG =>
    Voiced.reframe (X := []) hv (fun y hy => by cases hy) fun y hy =>
      ⟨.of_none (hG y hy).1 (hG y hy).2 t, Instr.reserved?_of_turn? (hG y hy).1⟩
  cases h with
  | within => exact hreframe G hw
  | starts =>
    refine Voiced.ease (hreframe (work ++ [.drain i]) fun y hy => ?_)
      ((Core.Eases.refl t k).congr rfl rfl rfl rfl rfl fun _ h => h) fun hb => hb
    rcases List.mem_append.1 hy with hy | hy
    · exact hw y hy
    · cases List.mem_singleton.1 hy
      exact ⟨rfl, rfl⟩

/-- User code takes no part in dialogues. -/
theorem Intervenes.voiced (h : Intervenes i past k k' G es) (hs : Stack i k.current F)
    (ho : Orderly i k F) (hd : Dialogue t past d) (hv : Voiced i t d k F D) :
    Voices i t k' (G ++ F) D (es.reverse ++ past) := by
  have hnil : ∀ y ∈ ([] : List Instr), y.turn? = none ∧ y.reaction? = none := fun y hy => by cases hy
  cases h with
  | quietly hq => exact ⟨d, hd.ignore fun e he => (hq e he).ignored, hv⟩
  | spawns h =>
    refine ⟨d, hd.ignore fun e he => ?_, h.voiced (hv.create false nofun fun y hy ht => ?_) hnil⟩
    · cases List.mem_singleton.1 he
      trivial
    · exact Nat.lt_irrefl _ (ho.driver (hs.turn_unique hy ht)).1.1
  | settles hset h hq =>
    exact ⟨d, hd.ignore fun e he => (hq e he).ignored,
      h.voiced (hv.ease ((Core.Eases.refl t k).settling hset) id) hnil⟩
  | cancels h =>
    refine ⟨d, hd, h.voiced hv fun y hy => ?_⟩
    cases List.mem_singleton.1 hy
    exact ⟨rfl, rfl⟩
  | queues _ hq =>
    refine ⟨d, hd.ignore fun e he => (hq e he).ignored, hv.ease ?_ id⟩
    exact ⟨Nat.le_refl _, fun hx => ⟨_, hx, rfl, rfl⟩, rfl,
      ⟨[], by simp [Core.grow], fun r hr => by cases hr⟩,
      Nat.le_refl _, id, fun hp hb => ⟨_, hp, hb, rfl, id⟩, id, fun _ => id⟩
  | sends =>
    refine ⟨d, hd, Voiced.ease (k := k) (Voiced.reframe (X := []) hv (fun y hy => by cases hy)
      fun y hy => ?_) ((Core.Eases.refl t k).congr rfl rfl rfl rfl rfl fun _ h => h) id⟩
    cases List.mem_singleton.1 hy
    exact ⟨.of_none rfl rfl t, rfl⟩

/-! ## The end of a dialogue -/

/-- No step of the task is under way, and its body is not with it: nothing of it is pending. -/
theorem Voiced.none_pending (hv : Voiced i t d k F (t :: D)) (hT : Tabled k F past)
    (hu : ∀ f ∈ F, ¬ f.Urgent) {x : EffectId} {w : Wait} (hx : k.waits.get? x = some w) :
    x ∉ d.asked := by
  intro hm
  obtain ⟨ht, hl⟩ := (hv.roots hx).1 hm
  by_cases hloose : x ∈ looseOf F
  · -- what the frames have at hand belongs to the task that is stepped
    obtain ⟨y, hy, hxy⟩ := List.mem_flatMap.1 hloose
    have hurgent := hu y hy
    have hstarts := hT.frames y hy
    have hturn : ∀ {nests : List Nest} {v : TaskId}, Open k.waits v nests →
        x ∈ nests.map Nest.id → y.turn? = some v → False := by
      intro nests v ho hm hv'
      obtain ⟨n, hn, rfl⟩ := List.mem_map.1 hm
      obtain ⟨w', hw', ht'⟩ := ho.exists_get? hn
      cases hx.symm.trans hw'
      exact (hv.turn y hy (hv'.trans (congrArg some (ht'.symm.trans ht)))).1 List.mem_cons_self
    cases y with
    | trigger | begun | leave => exact hurgent trivial
    | answer | cancelDone => exact hturn hstarts.1 hxy rfl
    | _ => cases hxy
  · obtain ⟨p, hp, hb, -⟩ := hT.rooted hx hl hloose
    exact (hv.body (ht ▸ hp) hb).1 List.mem_cons_self

/-- The body of a task is dropped, and its dialogue is over. -/
theorem Voiced.drop_body (hv : Voiced i t d k F (u :: D)) (hT : Tabled k F past)
    (hu : ∀ f ∈ F, ¬ f.Urgent) (hd : Dialogue t past d) :
    Voices i t k F D (.bodyDropped u :: past) := by
  by_cases hut : u = t
  · subst hut
    obtain ⟨hopen, hfin, hcount⟩ := hv.drop List.mem_cons_self
    have hD : u ∉ D := by
      rw [List.count_cons_self] at hcount
      exact List.count_eq_zero.1 (Nat.succ.inj hcount)
    have hbody : ∀ {p}, k.posture u = some p → p.hasBody ≠ true := fun hp hb =>
      (hv.body hp hb).1 List.mem_cons_self
    have hover : ∀ ph : Phase, ph.IsClosed → (ph = .torn → k.Doomed u) →
        Voiced i u { d with phase := ph } k F D := fun ph hclosed htorn =>
      { count := hv.count
        roots := hv.roots
        reserved := hv.reserved
        pending := fun hx hm => absurd hm (hv.none_pending hT hu hx)
        body := fun hp hb => absurd hb (hbody hp)
        rest := fun hp hb => absurd hb (hbody hp)
        turn := fun y hy ht => absurd List.mem_cons_self (hv.turn y hy ht).1
        drop := fun hm => absurd hm hD
        torn := htorn
        unborn := fun hn => absurd List.mem_cons_self (hv.unborn hn).2.1
        somewhere := fun hc => absurd hclosed hc
        halted := hv.halted }
    by_cases hf : d.phase.IsFinal
    · exact ⟨_, hd.event (.ends hf), hover .over trivial nofun⟩
    · exact ⟨_, hd.event (.tears hf hopen), hover .torn trivial fun _ => hfin.resolve_left hf⟩
  · have hmem : t ∈ u :: D ↔ t ∈ D := by simp [Ne.symm hut]
    have hcount : (u :: D).count t = D.count t := List.count_cons_of_ne hut
    refine ⟨d, hd.event (.ignores hut), ?_⟩
    exact
      { count := hv.count
        roots := hv.roots
        reserved := hv.reserved
        pending := hv.pending
        body := fun hp hb => ⟨fun hm => (hv.body hp hb).1 (hmem.2 hm), (hv.body hp hb).2⟩
        rest := hv.rest
        turn := fun y hy ht => ⟨fun hm => (hv.turn y hy ht).1 (hmem.2 hm), (hv.turn y hy ht).2⟩
        drop := fun hm => by
          rw [← hcount]
          exact hv.drop (hmem.2 hm)
        torn := hv.torn
        unborn := fun hn =>
          ⟨(hv.unborn hn).1, fun hm => (hv.unborn hn).2.1 (hmem.2 hm), (hv.unborn hn).2.2⟩
        somewhere := fun hc hn => (hv.somewhere hc hn).imp id fun h => h.imp id hmem.1
        halted := hv.halted }

/-! ## Every move -/

/--
The dialogue of a task at a point of a run: it fits to the engine, as long as the middleware is
alive, and the body is dropped once, if it is about to be dropped.
-/
structure Conversation (i : MiddlewareId) (t : TaskId) (v : View) (d : Talk) : Prop where
  dialogue : Dialogue t v.past d
  fits : v.alive = true → Voiced i t d v.core v.frames v.drops
  drop : t ∈ v.drops → ¬ d.phase.IsClosed ∧ v.drops.count t = 1
  gone : v.alive = false → ¬ d.phase.IsClosed → d.phase ≠ .silent → t ∈ v.drops

theorem Voices.conversation {v : View} (halive : v.alive = true)
    (h : Voices i t v.core v.frames v.drops v.past) : ∃ d, Conversation i t v d := by
  obtain ⟨d, hd, hv⟩ := h
  exact ⟨d, hd, fun _ => hv, fun hm => ⟨(hv.drop hm).1, (hv.drop hm).2.2⟩, fun hgone => by
    rw [halive] at hgone
    cases hgone⟩

/-- Every move carries the dialogue of a task on, or leaves it where it is. -/
theorem Conversation.move {v v' : View} (hc : Conversation i t v d) (hv : Sound i v)
    (h : Moves i v v') : ∃ d', Conversation i t v' d' := by
  obtain ⟨hd, hfits, hdrop, hgone⟩ := hc
  cases h with
  | @does alive k F D past x k' G D' es h hu =>
    have halive : alive = true := by
      cases ha : alive with
      | true => rfl
      | false => cases (hv.framed.dead ha).1
    exact Voices.conversation halive
      (h.voiced hv.framed.stack hv.orderly (hv.tabled halive) hd (hfits halive))
  | intervenes h hu =>
    exact Voices.conversation rfl (h.voiced hv.framed.stack hv.orderly hd (hfits rfl))
  | still => exact ⟨d, hd, hfits, hdrop, hgone⟩
  | @drops alive k F u D past hu =>
    cases alive with
    | true =>
      exact Voices.conversation rfl ((hfits rfl).drop_body (hv.tabled rfl) hu hd)
    | false =>
      -- bodies that went down with their middleware
      by_cases hut : u = t
      · subst hut
        obtain ⟨hopen, hcount⟩ := hdrop List.mem_cons_self
        have hD : u ∉ D := by
          rw [List.count_cons_self] at hcount
          exact List.count_eq_zero.1 (Nat.succ.inj hcount)
        by_cases hf : d.phase.IsFinal
        · exact ⟨_, hd.event (.ends hf), nofun, fun hm => absurd hm hD,
            fun _ hclosed => absurd trivial hclosed⟩
        · exact ⟨_, hd.event (.tears hf hopen), nofun, fun hm => absurd hm hD,
            fun _ hclosed => absurd trivial hclosed⟩
      · refine ⟨d, hd.event (.ignores hut), nofun, fun hm => ?_, fun ha hclosed hph => ?_⟩
        · have := hdrop (List.mem_cons_of_mem _ hm)
          rwa [List.count_cons_of_ne hut] at this
        · exact (List.mem_cons.1 (hgone ha hclosed hph)).resolve_left (Ne.symm hut)
  | @dies k past D hD =>
    refine ⟨d, hd, nofun, fun hm => ?_, fun _ hclosed hph => ?_⟩
    · obtain ⟨p, hp, hb⟩ := (hD.2 t).1 hm
      exact ⟨((hfits rfl).body hp hb).2, List.count_eq_one_of_mem hD.1 hm⟩
    · rcases (hfits rfl).somewhere hclosed hph with hb | ⟨y, hy, -⟩ | hm
      · exact (hD.2 t).2 hb
      · cases hy
      · cases hm

/-- Where a dialogue may stand while nothing is going on. -/
def Phase.IsAtRest : Phase → Prop
  | .polled | .answered .. => False
  | _ => True

theorem Phase.IsClosed.isAtRest {ph : Phase} (h : ph.IsClosed) : ph.IsAtRest := by
  cases ph with
  | polled | answered => exact h.elim
  | _ => trivial

/-- While the driver is idle no body is at work, and no answer is on its way to one. -/
theorem Conversation.at_rest {v : View} (hc : Conversation i t v d) (hv : Sound i v)
    (hF : v.frames = []) (hD : v.drops = []) : d.phase.IsAtRest := by
  obtain ⟨alive, k, F, D, past⟩ := v
  subst hF hD
  by_cases hclosed : d.phase.IsClosed
  · exact hclosed.isAtRest
  by_cases hsilent : d.phase = .silent
  · rw [hsilent]
    trivial
  cases alive with
  | false => cases hc.gone rfl hclosed hsilent
  | true =>
    have hvoiced := hc.fits rfl
    rcases hvoiced.somewhere hclosed hsilent with ⟨p, hp, hb⟩ | ⟨y, hy, -⟩ | hm
    · have hlive : p.status.isTerminal = false := by
        by_contra hs
        rcases (hv.orderly.tasks hp).terminal (by simpa using hs) with hcur | ⟨y, hy, -⟩
        · have hstack := hv.framed.stack
          rw [hcur] at hstack
          cases hstack
        · cases hy
      have hrest := hvoiced.rest hp hb hlive
      cases hpend : p.pending with
      | none =>
        -- a step of the task would be due
        have hidle : k.agenda = {} := hv.framed.idle rfl
        have hdue : dueSteps k [] t = [] := by simp [dueSteps, hidle]
        rcases hrest.aside hpend with ⟨-, h⟩ | ⟨x, signal, -, h⟩
        · cases hdue.symm.trans h
        · cases hdue.symm.trans h
      | some x =>
        rw [(hrest.parked hpend).1]
        trivial
    · cases hy
    · cases hm

end

/-! ## What a poll passes -/

/-- An event that is neither a poll of the task, nor about an effect that its body asked for. -/
def Event.Between (t : TaskId) (x : EffectId) : Event → Prop
  | .polled u _ => u ≠ t
  | .triggered u _ parent _ => u = t → parent ≠ none
  | .settled y _ => y ≠ x
  | _ => True

/-- The effect that the body of a task asked for last, by the events so far, latest first. -/
def AskedLast (t : TaskId) (x : EffectId) (past : List Event) : Prop :=
  ∃ e mid early, past = mid ++ .triggered t x none e :: early ∧ ∀ e ∈ mid, e.Between t x

/-- The effect that the body of a task asked for last has settled since, once. -/
def SettledLast (t : TaskId) (x : EffectId) (signal : Signal) (past : List Event) : Prop :=
  ∃ late early, past = late ++ .settled x signal :: early ∧ (∀ e ∈ late, e.Between t x) ∧
    AskedLast t x early

/--
What the events say of one poll: the first one passes nothing; every other one passes the value
or the fault with which the effect settled that the body asked for last.
-/
def Answers (t : TaskId) (past : List Event) (a : Option Answer) : Prop :=
  (a = none ∧ ∀ b, .polled t b ∉ past) ∨
    ∃ x signal, SettledLast t x signal past ∧ opening (some signal) = some a

/-- Where a dialogue stands is what the events say. -/
def Talk.Reads (t : TaskId) (past : List Event) (d : Talk) : Prop :=
  match d.phase with
  | .silent => ∀ b, .polled t b ∉ past
  | .asking x => x ∈ d.asked ∧ AskedLast t x past
  | .answered x signal => x ∈ d.asked ∧ SettledLast t x signal past
  | _ => True

section

variable {t : TaskId} {d : Talk} {past : List Event}

theorem Talk.Ignores.between {e : Event} {x : EffectId} (h : d.Ignores t e) (hx : x ∈ d.asked) :
    e.Between t x := by
  cases e with
  | polled | triggered => exact h
  | settled y signal => exact fun hyx => h (hyx ▸ hx)
  | _ => trivial

theorem Dialogue.reads (h : Dialogue t past d) : d.Reads t past := by
  induction h with
  | start => exact fun b hb => by cases hb
  | @event past d d' e h hs ih =>
    cases hs with
    | first | answers => exact trivial
    | ends | tears => exact trivial
    | @asks x e => exact ⟨List.mem_cons_self, e, [], past, rfl, fun e he => by cases he⟩
    | @settles x signal hph =>
      rw [Talk.Reads, hph] at ih
      exact ⟨ih.1, [], past, rfl, fun e he => (by cases he), ih.2⟩
    | ignores hi =>
      unfold Talk.Reads at ih ⊢
      split at ih
      · intro b hb
        rcases List.mem_cons.1 hb with rfl | hb
        · exact hi rfl
        · exact ih b hb
      · obtain ⟨hx, f, mid, early, rfl, hmid⟩ := ih
        refine ⟨hx, f, e :: mid, early, rfl, fun y hy => ?_⟩
        rcases List.mem_cons.1 hy with rfl | hy
        · exact hi.between hx
        · exact hmid y hy
      · obtain ⟨hx, late, early, rfl, hlate, hasked⟩ := ih
        refine ⟨hx, e :: late, early, rfl, fun y hy => ?_, hasked⟩
        rcases List.mem_cons.1 hy with rfl | hy
        · exact hi.between hx
        · exact hlate y hy
      · trivial

/-- A dialogue has one for all events up to any of them. -/
theorem Dialogue.earlier {later : List Event} (h : Dialogue t (later ++ past) d) :
    ∃ d', Dialogue t past d' := by
  induction later generalizing d with
  | nil => exact ⟨d, h⟩
  | cons e later ih =>
    cases h with
    | event h _ => exact ih h

/-- Every poll in a dialogue passes what it should. -/
theorem Dialogue.answers {later : List Event} {a : Option Answer}
    (h : Dialogue t (later ++ .polled t a :: past) d) : Answers t past a := by
  obtain ⟨d', h'⟩ := h.earlier
  cases h' with
  | event h hs =>
    have hr := h.reads
    cases hs with
    | first hph =>
      rw [Talk.Reads, hph] at hr
      exact Or.inl ⟨rfl, hr⟩
    | answers hph ha =>
      rw [Talk.Reads, hph] at hr
      exact Or.inr ⟨_, _, hr.2, ha⟩
    | ignores hi => exact absurd rfl hi

/-- What the body of a task asked for is written down in its dialogue. -/
theorem Dialogue.mem_asked {x : EffectId} {e : Effect} (h : Dialogue t past d)
    (hm : .triggered t x none e ∈ past) : x ∈ d.asked := by
  induction h with
  | start => cases hm
  | @event past d d' y h hs ih =>
    rcases List.mem_cons.1 hm with rfl | hpast
    · cases hs with
      | asks => exact List.mem_cons_self
      | ignores hi => exact absurd rfl (hi rfl)
    · cases hs with
      | asks => exact List.mem_cons_of_mem _ (ih hpast)
      | _ => exact ih hpast

/-- Once an effect of the body has ended, the body is dropped instead of being polled. -/
theorem Dialogue.ended {late : List Event} {x : EffectId} {e : Effect}
    (h : Dialogue t (late ++ .settled x .ended :: past) d) (hm : .triggered t x none e ∈ past) :
    (∀ a, .polled t a ∉ late) ∧
      (d.phase = .answered x .ended ∨ d.phase.IsClosed ∧ .bodyDropped t ∈ late) := by
  induction late generalizing d with
  | nil =>
    refine ⟨fun a ha => (by cases ha), Or.inl ?_⟩
    cases h with
    | event h hs =>
      have hx := h.mem_asked hm
      cases hs with
      | settles => rfl
      | ignores hi => exact absurd hx hi
  | cons y late ih =>
    cases h with
    | @event _ d' _ _ h hs =>
      obtain ⟨hpolls, hph⟩ := ih h
      cases hs with
      | first hph' =>
        rw [hph'] at hph
        rcases hph with hph | ⟨hph, -⟩
        · cases hph
        · exact hph.elim
      | asks hph' | settles hph' =>
        rw [hph'] at hph
        rcases hph with hph | ⟨hph, -⟩
        · cases hph
        · exact hph.elim
      | answers hph' ha =>
        rw [hph'] at hph
        rcases hph with hph | ⟨hph, -⟩
        · cases hph
          cases ha
        · exact hph.elim
      | ends | tears =>
        refine ⟨fun a ha => ?_, Or.inr ⟨trivial, List.mem_cons_self⟩⟩
        rcases List.mem_cons.1 ha with ha | ha
        · cases ha
        · exact hpolls a ha
      | ignores hi =>
        refine ⟨fun a ha => ?_, hph.imp id fun h => ⟨h.1, List.mem_cons_of_mem _ h.2⟩⟩
        rcases List.mem_cons.1 ha with rfl | ha
        · exact hi rfl
        · exact hpolls a ha

/-- A dialogue that is at rest has dropped the body after an effect of it that ended. -/
theorem Dialogue.dropped {late : List Event} {x : EffectId} {e : Effect}
    (h : Dialogue t (late ++ .settled x .ended :: past) d) (hm : .triggered t x none e ∈ past)
    (hrest : d.phase.IsAtRest) : .bodyDropped t ∈ late := by
  rcases (h.ended hm).2 with hph | ⟨-, hdrop⟩
  · rw [hph] at hrest
    exact hrest.elim
  · exact hdrop

end

/--
The answers that the body of a task gets and the effects that it asks for come in pairs, in the
events of a run. At an idle point of the run nothing is left to be done for the body.
-/
structure Paired (t : TaskId) (past : List Event) (idle : Prop) : Prop where
  /-- The body is polled and asks in turn, and each effect settles once before it is answered. -/
  dialogue : ∃ d, Dialogue t past d ∧ (idle → d.phase.IsAtRest)
  polls : ∀ {later a early}, past = later ++ .polled t a :: early → Answers t early a
  /-- After an effect that ended the body is dropped, and not polled again. -/
  ends : ∀ {late x e early}, past = late ++ .settled x .ended :: early →
    .triggered t x none e ∈ early →
      (∀ a, .polled t a ∉ late) ∧ (idle → .bodyDropped t ∈ late)

namespace Scenario.Visits

variable {s : Scenario} {c : Config} {i : MiddlewareId}

theorem conversation (h : s.Visits c) (hi : c.world.Has i) (t : TaskId) :
    ∃ d, Conversation i t (c.view i) d := by
  have hstart : Voiced i t {} (Engine.core {}) [] [] :=
    { count := fun hm => by cases hm
      roots := fun hx => by cases hx
      reserved := fun y hy => by cases hy
      pending := fun hx => by cases hx
      body := fun hp => by cases hp
      rest := fun hp => by cases hp
      turn := fun y hy => by cases hy
      drop := fun hm => by cases hm
      torn := nofun
      unborn := fun _ => ⟨rfl, fun hm => (by cases hm), rfl⟩
      somewhere := fun _ hn => absurd rfl hn
      halted := nofun }
  have := h.invariant (P := fun v => Sound i v ∧ ∃ d, Conversation i t v d)
    ⟨.start i, {}, .start, fun _ => hstart, fun hm => (by cases hm), nofun⟩
    (fun hv hm => ⟨hv.1.move hm, by
      obtain ⟨d, hd⟩ := hv.2
      exact hd.move hv.1 hm⟩) hi
  exact this.2

/-- Wherever a scenario comes to, the events are a dialogue, at rest between two operations. -/
theorem dialogue (h : s.Visits c) (hi : c.world.Has i) (t : TaskId) :
    ∃ d, Dialogue t (c.world.past i) d ∧ (c.todo = [] → d.phase.IsAtRest) := by
  obtain ⟨d, hc⟩ := h.conversation hi t
  exact ⟨d, hc.dialogue, fun hidle =>
    hc.at_rest (h.sound hi) (congrArg (framesOf i) hidle) (congrArg (dropsOf i) hidle)⟩

/--
The dialogue of every task with the interpreter keeps to the rules, whatever else goes on: each
poll passes what the effect settled with that the body asked for last, the first one passes
nothing, and after an effect that ended the body is dropped. Between two operations no answer
is on its way.
-/
theorem answers_paired (h : s.Visits c) (hi : c.world.Has i) (t : TaskId) :
    Paired t (c.world.past i) (c.todo = []) := by
  obtain ⟨d, hd, hrest⟩ := h.dialogue hi t
  refine ⟨⟨d, hd, hrest⟩, fun heq => ?_, fun heq hm => ?_⟩
  · rw [heq] at hd
    exact hd.answers
  · rw [heq] at hd
    exact ⟨(hd.ended hm).1, fun hidle => hd.dropped hm (hrest hidle)⟩

end Scenario.Visits

/-- What the polls of the body of a task passed, the latest first. -/
def pollsIn (t : TaskId) (past : List Event) : List (Option Answer) :=
  past.filterMap fun
    | .polled u a => if u = t then some a else none
    | _ => none

/-- A body forks a task, gets it as the answer, and takes from a channel that is closed. -/
def Scenario.takesFromClosed : Scenario where
  channels := [("line", .buffered .unbounded)]
  scripts := [
    ("early", [.perform (.fork { source := .named "late" }) none none,
      .perform (.take (some "line") .any) none none]),
    ("late", [.return .unit])]
  steps := [.close "line", .run 0 { source := .named "early" } none]

theorem Scenario.answers_paired_takesFromClosed : ∃ c, takesFromClosed.Visits c ∧ c.todo = [] ∧
    (pollsIn 1 (c.world.past 0)).map Option.isSome = [true, false] ∧
      Paired 1 (c.world.past 0) (c.todo = []) := by
  have h : (takesFromClosed.final?.any fun w =>
      (w.alive? 0).isSome && decide ((pollsIn 1 (w.past 0)).map Option.isSome = [true, false])) =
        true := by
    decide +kernel
  obtain ⟨w, hw, h⟩ := (Option.any_eq_true ..).1 h
  simp only [Bool.and_eq_true, decide_eq_true_eq] at h
  have hv : takesFromClosed.Visits ⟨[], w⟩ := Visits.of_final? hw
  exact ⟨⟨[], w⟩, hv, rfl, h.2, hv.answers_paired (World.has_iff.2 h.1) 1⟩

end SagaMachine
