import SagaMachine.Proofs.Voices

/-!
# Dialogues within the step of a task

Within its step a task is polled, asks for an effect, and may have it answered at once. Each
frame of the step says nothing, polls, triggers an effect or settles one, and in each case
the dialogues of all tasks fit to the engine again.

Main statement: `Does.voiced_turn`.
-/

namespace SagaMachine

/-- The step of a task changes no task, and makes no step of one due. -/
structure Core.Stays (k k' : Core) : Prop where
  posture : k'.posture = k.posture
  nextTask : k'.nextTask = k.nextTask
  halted : k'.halted = k.halted
  count : k.nextEffect ≤ k'.nextEffect
  stack : k'.agenda.stack = k.agenda.stack
  fresh : ∃ rs, k'.agenda.fresh = k.agenda.fresh ++ rs ∧ Stepless rs

theorem Stepless.nil : Stepless [] := fun r hr => by cases hr

theorem Core.Stays.refl (k : Core) : k.Stays k :=
  ⟨rfl, rfl, rfl, Nat.le_refl _, rfl, [], by simp, .nil⟩

theorem Core.Stays.waits (k : Core) (waits : Waits) : k.Stays { k with waits } :=
  ⟨rfl, rfl, rfl, Nat.le_refl _, rfl, [], by simp, .nil⟩

theorem Core.Stays.number (k : Core) : k.Stays k.number :=
  ⟨rfl, rfl, rfl, Nat.le_succ _, rfl, [], by simp [Core.number], .nil⟩

theorem Nest.link_eq_task {nests : List Nest} : Nest.link nests = .task ↔ nests = [] := by
  cases nests with
  | nil => simp [Nest.link]
  | cons n nests => cases n <;> simp [Nest.link]

theorem Nest.parent?_link_eq_none {nests : List Nest} :
    (Nest.link nests).parent? = none ↔ nests = [] := by
  cases nests with
  | nil => simp [Nest.link, Link.parent?]
  | cons n nests => cases n <;> simp [Nest.link, Link.parent?]

/-- A frame that has started nothing voices nothing but where the effect of its own stands. -/
theorem Instr.Voices.asking {x : Instr} {ph : Phase} {y : EffectId} (h : x.Voices ph)
    (hy : x.reserved? = some y) (hn : x.nests = []) : ph = .asking y := by
  cases x with
  | answer turn b nests id result env =>
    cases hy
    cases hn
    exact h
  | cancelDone turn b nests id =>
    cases hy
    cases hn
    exact h
  | _ => cases hy

/-- Events that no dialogue is about. -/
def Event.IsMute : Event → Prop
  | .withdrawn _ | .taskStarted .. => True
  | e => e.IsQuiet

theorem Event.IsMute.ignored {e : Event} (h : e.IsMute) (d : Talk) (t : TaskId) :
    d.Ignores t e := by
  cases e with
  | withdrawn | taskStarted => trivial
  | polled | triggered | settled | bodyDropped | taskFinished => exact h.elim
  | _ => exact Event.IsQuiet.ignored h

/-- Events that no dialogue is about. -/
def Mute (es : List Event) : Prop := ∀ e ∈ es, e.IsMute

theorem Mute.nil : Mute [] := fun e he => by cases he

theorem Quiet.mute {es : List Event} (h : Quiet es) : Mute es := by
  intro e he
  have hq := h e he
  cases e with
  | withdrawn | taskStarted => trivial
  | _ => exact hq

theorem Mute.withdrawn {ps : List Passage} (h : ∀ p ∈ ps, ∃ x w, p = .withdrawn x w) :
    Mute (ps.map Passage.event) := by
  intro e he
  obtain ⟨p, hp, rfl⟩ := List.mem_map.1 he
  obtain ⟨x, w, rfl⟩ := h p hp
  trivial

section

variable {i : MiddlewareId} {k k' : Core} {D : List TaskId} {t u : TaskId} {d d' : Talk}
  {x g : Instr} {past es : List Event}

/-- What is to be shown after a frame of the step of task `u` for the dialogue of task `t`. -/
theorem Voiced.speak (hv : Voiced i t d k [x, .drain i] D) (hx : x.turn? = some u)
    (hg : g.turn? = some u) (ha : k.Afoot u) (hk : k.Stays k')
    (hcount : ∀ {y}, y ∈ d'.asked → y < k'.nextEffect)
    (hroots : ∀ {y w}, k'.waits.get? y = some w → (y ∈ d'.asked ↔ w.task = t ∧ w.link = .task))
    (hres : ∀ {y}, g.reserved? = some y → (y ∈ d'.asked ↔ u = t ∧ g.nests = []))
    (hpend : ∀ {y w}, k'.waits.get? y = some w → y ∈ d'.asked → d'.phase = .asking y)
    (hself : u = t → ¬ d'.phase.IsClosed ∧ g.Voices d'.phase) (hother : u ≠ t → d' = d) :
    Voiced i t d' k' [g, .drain i] D := by
  obtain ⟨rs, hfresh, hrs⟩ := hk.fresh
  have hdue : dueSteps k' [g, .drain i] t = dueSteps k [x, .drain i] t := by
    refine dueSteps_congr ?_ hk.stack hfresh hrs
    have hnone : ∀ y : Instr, y.turn? = some u → y.reaction? = none := by
      intro y hy
      cases y with
      | perform => cases hy
      | _ => rfl
    simp [List.filterMap_cons, hnone x hx, hnone g hg]
  have hnone : ∀ y ∈ [g, Instr.drain i], y ≠ g → y.turn? = none ∧ y.reserved? = none := by
    intro y hy hne
    simp only [List.mem_cons, List.not_mem_nil, or_false] at hy
    rcases hy with rfl | rfl
    · exact absurd rfl hne
    · exact ⟨rfl, rfl⟩
  have hlive : k'.Doomed t ↔ k.Doomed t := by
    simp only [Core.Doomed, hk.posture, hk.nextTask]
  have hreserved : ∀ y ∈ [g, Instr.drain i], ∀ {z}, y.reserved? = some z →
      (z ∈ d'.asked ↔ y.turn? = some t ∧ y.nests = []) := by
    intro y hy z hz
    by_cases hyg : y = g
    · subst hyg
      rw [hres hz, hg]
      simp
    · rw [(hnone y hy hyg).2] at hz
      cases hz
  by_cases hut : u = t
  · subst hut
    obtain ⟨hopen, hvoice⟩ := hself rfl
    obtain ⟨hD, -, hnodue, -⟩ := hv.turn x List.mem_cons_self hx
    have hbody : ∀ {p}, k'.posture u = some p → p.hasBody ≠ true := by
      intro p hp hb
      rw [hk.posture] at hp
      rw [(ha.2 p hp).1] at hb
      cases hb
    refine ⟨hcount, hroots, hreserved, hpend, ?_, ?_, ?_, ?_, ?_, ?_, ?_, ?_⟩
    · exact fun hp hb => absurd hb (hbody hp)
    · exact fun hp hb => absurd hb (hbody hp)
    · intro y hy ht
      by_cases hyg : y = g
      · subst hyg
        exact ⟨hD, hopen, hdue.trans hnodue, hvoice⟩
      · rw [(hnone y hy hyg).1] at ht
        cases ht
    · exact fun hm => absurd hm hD
    · intro ht
      rw [ht] at hopen
      exact absurd trivial hopen
    · intro hn
      rw [hk.nextTask] at hn
      exact absurd ha.1 (Nat.not_lt_of_le hn)
    · exact fun _ _ => Or.inr (Or.inl ⟨g, List.mem_cons_self, hg⟩)
    · rw [hk.halted]
      exact hv.halted
  · cases hother hut
    refine ⟨hcount, hroots, hreserved, hpend, ?_, ?_, ?_, ?_, ?_, ?_, ?_, ?_⟩
    · intro p hp hb
      exact hv.body (hk.posture ▸ hp) hb
    · intro p hp hb hl
      rw [hdue]
      exact hv.rest (hk.posture ▸ hp) hb hl
    · intro y hy ht
      by_cases hyg : y = g
      · subst hyg
        rw [hg] at ht
        exact absurd (Option.some.inj ht) hut
      · rw [(hnone y hy hyg).1] at ht
        cases ht
    · intro hm
      obtain ⟨h1, h2, h3⟩ := hv.drop hm
      exact ⟨h1, h2.imp id hlive.2, h3⟩
    · exact fun ht => hlive.2 (hv.torn ht)
    · intro hn
      rw [hk.nextTask] at hn
      rw [hdue]
      exact hv.unborn hn
    · intro hc hn
      rcases hv.somewhere hc hn with ⟨p, hp, hb⟩ | ⟨y, hy, ht⟩ | hm
      · exact Or.inl ⟨p, hk.posture ▸ hp, hb⟩
      · simp only [List.mem_cons, List.not_mem_nil, or_false] at hy
        rcases hy with rfl | rfl
        · rw [hx] at ht
          exact absurd (Option.some.inj ht) hut
        · cases ht
      · exact Or.inr (Or.inr hm)
    · rw [hk.halted]
      exact hv.halted

/-- A dialogue that fits to an engine after more events. -/
def Voices (i : MiddlewareId) (t : TaskId) (k' : Core) (F' : List Instr) (D' : List TaskId)
    (past' : List Event) : Prop := ∃ d, Dialogue t past' d ∧ Voiced i t d k' F' D'

variable (hd : Dialogue t past d) (hv : Voiced i t d k [x, .drain i] D) (hx : x.turn? = some u)
  (hg : g.turn? = some u) (ha : k.Afoot u)

include hd hv hx hg ha

/-- A frame that says nothing. -/
theorem Voiced.mute {m : List Event} (hk : k.Stays k') (hm : Mute m)
    (hw : ∀ {y w}, k'.waits.get? y = some w →
      (∃ w', k.waits.get? y = some w' ∧ w'.task = w.task ∧ w'.link = w.link) ∨
        x.reserved? = some y ∧ w.task = u ∧ w.link = Nest.link x.nests)
    (hres : g.reserved? = none) (hvoice : ∀ ph, x.Voices ph → g.Voices ph) :
    Voices i t k' [g, .drain i] D (m.reverse ++ past) := by
  refine ⟨d, hd.ignore fun e he => (hm e he).ignored d t, hv.speak hx hg ha hk ?_ ?_ ?_ ?_ ?_ ?_⟩
  · exact fun hy => Nat.lt_of_lt_of_le (hv.count hy) hk.count
  · intro y w hy
    rcases hw hy with ⟨w', hw', ht, hl⟩ | ⟨hr, ht, hl⟩
    · rw [hv.roots hw', ht, hl]
    · rw [hv.reserved x List.mem_cons_self hr, hx, ht, hl, Nest.link_eq_task]
      simp
  · intro y hy
    rw [hres] at hy
    cases hy
  · intro y w hy hm
    rcases hw hy with ⟨w', hw', -⟩ | ⟨hr, -⟩
    · exact hv.pending hw' hm
    · obtain ⟨hxt, hn⟩ := (hv.reserved x List.mem_cons_self hr).1 hm
      exact (hv.turn x List.mem_cons_self hxt).2.2.2.asking hr hn
  · intro hut
    obtain ⟨-, h2, -, h4⟩ := hv.turn x List.mem_cons_self (hut ▸ hx)
    exact ⟨h2, hvoice _ h4⟩
  · exact fun _ => rfl

/-- A body is polled. -/
theorem Voiced.polls {a : Option Answer} (hpoll : ∃ turn b, x = .poll turn b a)
    (hres : g.reserved? = none) (hvoice : g.Voices .polled) :
    Voices i t k [g, .drain i] D ([Event.polled u a].reverse ++ past) := by
  obtain ⟨turn, b, rfl⟩ := hpoll
  have key : ∀ d', d.Step t (.polled u a) d' → d'.asked = d.asked →
      (u = t → d'.phase = .polled) → (u ≠ t → d' = d) →
      Voices i t k [g, .drain i] D ([Event.polled u a].reverse ++ past) := by
    intro d' hs hasked hself hother
    refine ⟨d', hd.event hs, hv.speak hx hg ha (.refl k) ?_ ?_ ?_ ?_ ?_ hother⟩
    · rw [hasked]
      exact hv.count
    · rw [hasked]
      exact hv.roots
    · intro y hy
      rw [hres] at hy
      cases hy
    · intro y w hy hm
      rw [hasked] at hm
      by_cases hut : u = t
      · -- nothing that the task asked for is pending when it is polled
        have hph := hv.pending hy hm
        rcases (hv.turn _ List.mem_cons_self (hut ▸ hx)).2.2.2 with ⟨h, -⟩ | ⟨z, s, h, -⟩
        · rw [hph] at h
          cases h
        · rw [hph] at h
          cases h
      · rw [hother hut]
        exact hv.pending hy hm
    · intro hut
      rw [hself hut]
      exact ⟨id, hvoice⟩
  by_cases hut : u = t
  · subst hut
    rcases (hv.turn _ List.mem_cons_self hx).2.2.2 with ⟨h, rfl⟩ | ⟨z, s, h, ho⟩
    · exact key _ (.first h) rfl (fun _ => rfl) fun hne => absurd rfl hne
    · cases a with
      | none => cases s <;> cases ho
      | some a => exact key _ (.answers h ho) rfl (fun _ => rfl) fun hne => absurd rfl hne
  · exact key d (.ignores hut) rfl (fun h => absurd h hut) fun _ => rfl

/-- An effect settles while it is started. -/
theorem Voiced.settles {y : EffectId} {signal : Signal} {m : List Event} (hmid : Mute m)
    (hk : k.Stays k')
    (hw : ∀ {z w}, k'.waits.get? z = some w → z ≠ y ∧
      ∃ w', k.waits.get? z = some w' ∧ w'.task = w.task ∧ w'.link = w.link)
    (hy : (∃ w, k.waits.get? y = some w ∧ w.task = u ∧ w.link = Nest.link g.nests) ∨
      x.reserved? = some y ∧ g.nests = x.nests)
    (hres : g.reserved? = none) (hvoice : ∀ ph, g.Voices ph ∨ g.nests = [] ∧
      g.Voices (.answered y signal)) :
    Voices i t k' [g, .drain i] D ((m ++ [Event.settled y signal]).reverse ++ past) := by
  have hmem : y ∈ d.asked ↔ u = t ∧ g.nests = [] := by
    rcases hy with ⟨w, hget, ht, hl⟩ | ⟨hr, hn⟩
    · rw [hv.roots hget, ht, hl, Nest.link_eq_task]
    · rw [hv.reserved x List.mem_cons_self hr, hx, hn]
      simp
  have hignore : ∀ e ∈ m, d.Ignores t e := fun e he => (hmid e he).ignored d t
  have key : ∀ d', d.Step t (.settled y signal) d' → d'.asked = d.asked →
      (∀ z, z ≠ y → d.phase = .asking z → d'.phase = .asking z) →
      (u = t → ¬ d'.phase.IsClosed ∧ g.Voices d'.phase) → (u ≠ t → d' = d) →
      Voices i t k' [g, .drain i] D ((m ++ [Event.settled y signal]).reverse ++ past) := by
    intro d' hs hasked hph hself hother
    refine ⟨d', hd.ignore_event hignore hs, hv.speak hx hg ha hk ?_ ?_ ?_ ?_ hself hother⟩
    · rw [hasked]
      exact fun hm => Nat.lt_of_lt_of_le (hv.count hm) hk.count
    · intro z w hz
      obtain ⟨-, w', hw', ht, hl⟩ := hw hz
      rw [hasked, hv.roots hw', ht, hl]
    · intro z hz
      rw [hres] at hz
      cases hz
    · intro z w hz hm
      rw [hasked] at hm
      obtain ⟨hne, w', hw', -⟩ := hw hz
      exact hph z hne (hv.pending hw' hm)
  by_cases hroot : u = t ∧ g.nests = []
  · obtain ⟨rfl, hn⟩ := hroot
    have hasking : d.phase = .asking y := by
      have hm := hmem.2 ⟨rfl, hn⟩
      rcases hy with ⟨w, hget, -⟩ | ⟨hr, hn'⟩
      · exact hv.pending hget hm
      · exact (hv.turn x List.mem_cons_self hx).2.2.2.asking hr (hn' ▸ hn)
    refine key _ (.settles hasking) rfl (fun z hz h => ?_) (fun _ => ⟨id, ?_⟩) fun hne => absurd rfl hne
    · rw [hasking] at h
      cases h
      exact absurd rfl hz
    · rcases hvoice (.answered y signal) with h | h
      · exact h
      · exact h.2
  · refine key d (.ignores fun hm => hroot (hmem.1 hm)) rfl (fun _ _ h => h) (fun hut => ?_) fun _ => rfl
    refine ⟨(hv.turn x List.mem_cons_self (hut ▸ hx)).2.1, ?_⟩
    rcases hvoice d.phase with h | ⟨hn, -⟩
    · exact h
    · exact absurd ⟨hut, hn⟩ hroot

end

section

variable {i : MiddlewareId} {k k' : Core} {D : List TaskId} {t u : TaskId} {d : Talk}
  {g : Instr} {F : List Instr} {past : List Event} {b : Body} {nests : List Nest} {e : Effect}

/-- A body asks for an effect, or a combinator for one of its members. -/
theorem Voiced.asks {mid : List Event} (hd : Dialogue t past d)
    (hv : Voiced i t d k [.trigger ⟨i, u⟩ b nests e, .drain i] D) (hg : g.turn? = some u)
    (ha : k.Afoot u) (hk : k.Stays k') (hnew : k.nextEffect < k'.nextEffect) (hmid : Mute mid)
    (hfree : k.waits.get? k.nextEffect = none)
    (hw : ∀ {y w}, k'.waits.get? y = some w →
      (∃ w', k.waits.get? y = some w' ∧ w'.task = w.task ∧ w'.link = w.link) ∨
        y = k.nextEffect ∧ w.task = u ∧ w.link = Nest.link nests)
    (hres : ∀ {y}, g.reserved? = some y → y = k.nextEffect ∧ g.nests = nests)
    (hvoice : ∀ ph, nests ≠ [] ∨ ph = .asking k.nextEffect → g.Voices ph) :
    Voices i t k' [g, .drain i] D
      ((Event.triggered u k.nextEffect (Nest.link nests).parent? e :: mid).reverse ++ past) := by
  have hx : (Instr.trigger ⟨i, u⟩ b nests e).turn? = some u := rfl
  have hfresh : k.nextEffect ∉ d.asked := fun hm => Nat.lt_irrefl _ (hv.count hm)
  have hold : ∀ {y w}, k.waits.get? y = some w → y ≠ k.nextEffect := by
    rintro y w hy rfl
    cases hfree.symm.trans hy
  rw [List.reverse_cons, List.append_assoc]
  by_cases hroot : u = t ∧ nests = []
  · obtain ⟨rfl, rfl⟩ := hroot
    have hpolled : d.phase = .polled := (hv.turn _ List.mem_cons_self hx).2.2.2
    refine ⟨_, (hd.event (.asks hpolled hfresh)).ignore fun e he => (hmid e he).ignored _ u,
      hv.speak hx hg ha hk ?_ ?_ ?_ ?_ (fun _ => ⟨id, hvoice _ (Or.inr rfl)⟩) fun h => absurd rfl h⟩
    · intro y hy
      rcases List.mem_cons.1 hy with rfl | hy
      · exact hnew
      · exact Nat.lt_of_lt_of_le (hv.count hy) hk.count
    · intro y w hy
      rcases hw hy with ⟨w', hw', ht, hl⟩ | ⟨rfl, ht, hl⟩
      · rw [List.mem_cons, or_iff_right (hold hw'), hv.roots hw', ht, hl]
      · exact ⟨fun _ => ⟨ht, hl⟩, fun _ => List.mem_cons_self⟩
    · intro y hy
      obtain ⟨rfl, hn⟩ := hres hy
      exact ⟨fun _ => ⟨rfl, hn⟩, fun _ => List.mem_cons_self⟩
    · intro y w hy hm
      rcases hw hy with ⟨w', hw', -⟩ | ⟨rfl, -⟩
      · have hask := hv.pending hw' ((List.mem_cons.1 hm).resolve_left (hold hw'))
        cases hask.symm.trans hpolled
      · rfl
  · have hstep : d.Step t (.triggered u k.nextEffect (Nest.link nests).parent? e) d :=
      .ignores fun hut hn => hroot ⟨hut, Nest.parent?_link_eq_none.1 hn⟩
    refine ⟨d, (hd.event hstep).ignore fun e he => (hmid e he).ignored _ t,
      hv.speak hx hg ha hk ?_ ?_ ?_ ?_ (fun hut => ?_) fun _ => rfl⟩
    · exact fun hy => Nat.lt_of_lt_of_le (hv.count hy) hk.count
    · intro y w hy
      rcases hw hy with ⟨w', hw', ht, hl⟩ | ⟨rfl, ht, hl⟩
      · rw [hv.roots hw', ht, hl]
      · refine ⟨fun h => absurd h hfresh, fun h => absurd ⟨?_, ?_⟩ hroot⟩
        · exact ht.symm.trans h.1
        · exact Nest.link_eq_task.1 (hl.symm.trans h.2)
    · intro y hy
      obtain ⟨rfl, hn⟩ := hres hy
      rw [hn]
      exact ⟨fun h => absurd h hfresh, fun h => absurd h hroot⟩
    · intro y w hy hm
      rcases hw hy with ⟨w', hw', -⟩ | ⟨rfl, -⟩
      · exact hv.pending hw' hm
      · exact absurd hm hfresh
    · exact ⟨(hv.turn _ List.mem_cons_self (hut ▸ hx)).2.1,
        hvoice _ (Or.inl fun hn => hroot ⟨hut, hn⟩)⟩

/-- An effect that settles at once is asked for and answered. -/
theorem Voiced.asksAndSettles {m : List Event} {s : Signal} (hd : Dialogue t past d)
    (hv : Voiced i t d k [.trigger ⟨i, u⟩ b nests e, .drain i] D) (ha : k.Afoot u)
    (hmid : Mute m) (hfree : k.waits.get? k.nextEffect = none) :
    Voices i t k.number [.begun ⟨i, u⟩ b nests (.immediate s), .drain i] D
      ((Event.triggered u k.nextEffect (Nest.link nests).parent? e :: m ++
        [Event.settled k.nextEffect s]).reverse ++ past) := by
  -- in between, the number of the effect is kept by a frame that is about to settle it
  obtain ⟨d', hd', hv'⟩ := hv.asks (g := .cancelDone ⟨i, u⟩ b nests k.nextEffect) (e := e) hd rfl ha
    (.number k) (Nat.lt_succ_self _) hmid hfree (fun h => Or.inl ⟨_, h, rfl, rfl⟩)
    (fun h => by
      cases h
      exact ⟨rfl, rfl⟩)
    (fun ph h => by
      cases nests with
      | nil => exact h.resolve_left fun h => h rfl
      | cons => trivial)
  have ha' : k.number.Afoot u := ha
  rw [List.reverse_append, List.append_assoc]
  refine hv'.settles (g := .begun ⟨i, u⟩ b nests (.immediate s)) hd' rfl rfl ha' .nil (.refl _) ?_
    (Or.inr ⟨rfl, rfl⟩) rfl ?_
  · intro z w hz
    refine ⟨?_, w, hz, rfl, rfl⟩
    rintro rfl
    cases hfree.symm.trans hz
  · intro ph
    cases nests with
    | nil => exact Or.inr ⟨rfl, _, rfl⟩
    | cons => exact Or.inl trivial

/-- A task is created, and its start is due. -/
theorem Voiced.create {parent : Option TaskId} (h : Voiced i t d k F D) (detached : Bool)
    (hpar : parent ≠ some k.nextTask)
    (hF : ∀ y ∈ F, y.turn? ≠ some k.nextTask) :
    Voiced i t d ((k.create parent detached).schedule [.start k.nextTask]) F D := by
  have hpost := k.posture_create detached hpar t
  by_cases ht : t = k.nextTask
  · -- nothing was said yet; now the first step is due
    subst ht
    rw [if_pos rfl] at hpost
    obtain ⟨rfl, hD, hdue⟩ := h.unborn (Nat.le_refl _)
    have hnext := k.nextTask_create parent detached
    have hsame : (k.create parent detached).waits = k.waits ∧
        (k.create parent detached).agenda = k.agenda ∧
        (k.create parent detached).nextEffect = k.nextEffect ∧
        (k.create parent detached).halted = k.halted := by
      rw [k.create_eq]
      exact ⟨rfl, rfl, rfl, rfl⟩
    obtain ⟨hw, ha, he, hh⟩ := hsame
    have hdue' : dueSteps ((k.create parent detached).schedule [.start k.nextTask]) F k.nextTask =
        [.start k.nextTask] := by
      refine dueSteps_push (k := k) rfl rfl ?_ ?_ hdue
      · simp [Core.schedule, ha]
      · simp [Core.schedule, ha]
    exact
      { count := fun hm => by cases hm
        roots := fun hx => h.roots (hw ▸ hx)
        reserved := h.reserved
        pending := fun _ hm => by cases hm
        body := fun _ _ => ⟨hD, id⟩
        rest := fun hp _ _ => by
          cases hpost.symm.trans hp
          exact ⟨fun _ => Or.inl ⟨rfl, hdue'⟩, fun hp => by cases hp⟩
        turn := fun y hy ht => absurd ht (hF y hy)
        drop := fun hm => absurd hm hD
        torn := fun h => by cases h
        unborn := fun hn => absurd (hnext ▸ hn : k.nextTask + 1 ≤ k.nextTask) (Nat.not_succ_le_self _)
        somewhere := fun _ _ => Or.inl ⟨_, hpost, rfl⟩
        halted := fun v => hh ▸ h.halted v }
  · refine h.ease (.create detached hpar ht) fun hold => ?_
    obtain ⟨p, hp, hb⟩ := hold
    refine ⟨k.welcome parent detached t p, ?_, ?_⟩
    · rw [Core.posture_schedule, hpost, if_neg ht, hp]
      rfl
    · rw [k.welcome_eq]
      exact hb

end

/-! ## The frames of a step -/

/-- No effect is new, and those that are left have the owner and the place that they had. -/
theorem Waits.Touches.kept {waits waits' : Waits} {t : TaskId} (h : waits.Touches waits' t [])
    {y : EffectId} {w : Wait} (hy : waits'.get? y = some w) :
    ∃ w', waits.get? y = some w' ∧ w'.task = w.task ∧ w'.link = w.link := by
  rcases h.old hy with ⟨hm, -⟩ | ⟨w', hw', ht, hl, -⟩
  · cases hm
  · exact ⟨w', hw', ht, hl⟩

theorem Mute.detach (waits : Waits) (ids : List EffectId) :
    Mute ((Waits.detach waits ids).1.map Passage.event) :=
  .withdrawn fun p hp => by
    obtain ⟨x, w, rfl, -⟩ := Waits.withdrawn_of_mem_detach hp
    exact ⟨x, w, rfl⟩

theorem Mute.detachEach (waits : Waits) (ids : List EffectId) :
    Mute ((Waits.detachEach waits ids).1.map Passage.event) :=
  .withdrawn fun p hp => by
    obtain ⟨x, w, rfl, -⟩ := Waits.withdrawn_of_mem_detachEach hp
    exact ⟨x, w, rfl⟩

/-- An effect that is pending or given up says nothing. -/
theorem Instr.voices_begun {turn : Turn} {b : Body} {nests : List Nest} {start : Start} {ph : Phase}
    (h : ∀ signal, start = .immediate signal → nests ≠ []) :
    (Instr.begun turn b nests start).Voices ph := by
  cases nests with
  | nil =>
    cases start with
    | immediate signal => exact absurd rfl (h signal rfl)
    | _ => trivial
  | cons => trivial

/-- An effect that settled at once tells its outcome, unless it is a member of a combinator. -/
theorem Instr.voices_immediate {turn : Turn} {b : Body} {nests : List Nest} {y : EffectId}
    {signal : Signal} (ph : Phase) :
    (Instr.begun turn b nests (.immediate signal)).Voices ph ∨
      nests = [] ∧ (Instr.begun turn b nests (.immediate signal)).Voices (.answered y signal) := by
  cases nests with
  | nil => exact Or.inr ⟨rfl, y, rfl⟩
  | cons => exact Or.inl trivial

section

variable {i : MiddlewareId} {k k' : Core} {G : List Instr} {D D' : List TaskId} {t u : TaskId}
  {d : Talk} {x : Instr} {past es : List Event}

/-- A frame that started nothing, and is in the same place as before, says the same. -/
theorem Voiced.still {g : Instr} (hd : Dialogue t past d) (hv : Voiced i t d k [x, .drain i] D)
    (hx : x.turn? = some u) (hg : g.turn? = some u) (ha : k.Afoot u) (hres : g.reserved? = none)
    (hvoice : ∀ ph, x.Voices ph → g.Voices ph) : Voices i t k [g, .drain i] D past :=
  hv.mute (m := []) hd hx hg ha (.refl k) .nil (fun h => Or.inl ⟨_, h, rfl, rfl⟩) hres hvoice

/-- The dialogues of all tasks fit to the engine after a frame of the step of a task. -/
theorem Does.voiced_turn (h : Does i past x k k' G D' es) (hx : x.turn? = some u)
    (hn : ∀ b exit, x ≠ .leave ⟨i, u⟩ b exit) (ha : k.Afoot u) (ho : Orderly i k [x, .drain i])
    (hT : Tabled k [x, .drain i] past) (hd : Dialogue t past d)
    (hv : Voiced i t d k [x, .drain i] D) :
    Voices i t k' (G ++ [.drain i]) (D' ++ D) (es.reverse ++ past) := by
  have hst := hT.starting hx ha
  have hold : ∀ {y w}, k.waits.get? y = some w →
      ∃ w', k.waits.get? y = some w' ∧ w'.task = w.task ∧ w'.link = w.link :=
    fun h => ⟨_, h, rfl, rfl⟩
  have hinsert : ∀ {n y : EffectId} {w w₀ : Wait}, (k.waits.insert n w₀).get? y = some w →
      (∃ w', k.waits.get? y = some w' ∧ w'.task = w.task ∧ w'.link = w.link) ∨
        y = n ∧ w.task = w₀.task ∧ w.link = w₀.link := by
    intro n y w w₀ hy
    rw [Table.get?_insert] at hy
    split at hy
    · cases hy
      exact Or.inr ⟨‹_›, rfl, rfl⟩
    · exact Or.inl (hold hy)
  cases h with
  | @poll _ t' b a g hg =>
    cases hx
    obtain ⟨h1, h2, h3, -⟩ := hg.plain
    refine hv.polls hd rfl h1 ha ⟨_, _, rfl⟩ ?_ ?_
    all_goals
      cases g with
      | advance | polled => exact rfl
      | _ => exact hg.elim
  | @advance _ t' s m g hg =>
    cases hx
    have hg' := hg.plain.1
    refine hv.still hd rfl hg' ha ?_ fun ph h => ?_
    all_goals
      cases g with
      | advance | polled => first | rfl | exact h
      | _ => exact hg.elim
  | polledHalted | begunHalt | begunHalted =>
    cases hx
    exact hv.still hd rfl rfl ha rfl fun _ _ => trivial
  | cancelHalted | triggerHalted =>
    cases hx
    exact hv.still hd rfl rfl ha rfl fun _ _ => Instr.voices_begun fun _ h => by cases h
  | polledComplete | polledYielded | begunYields =>
    cases hx
    exact hv.still hd rfl rfl ha rfl fun ph h => h
  | begunEnds =>
    cases hx
    exact hv.still hd rfl rfl ha rfl fun ph h => h
  | begunSuspends =>
    cases hx
    exact hv.still hd rfl rfl ha rfl fun _ _ => trivial
  | begunPolls _ hopen =>
    cases hx
    refine hv.still hd rfl rfl ha rfl fun ph h => Or.inr ?_
    obtain ⟨y, hy⟩ := h
    exact ⟨y, _, hy, hopen⟩
  | triggerSettles _ _ hq =>
    cases hx
    exact hv.asksAndSettles hd ha hq.mute hT.get?_nextEffect
  | @triggerForks _ u b nests e hl he saga detached v =>
    cases hx
    obtain ⟨d', hd', hv'⟩ := hv.asksAndSettles (m := [.taskStarted k.nextTask (some u) saga])
      (s := .value v) hd ha (fun e he => by
        cases List.mem_singleton.1 he
        trivial) hT.get?_nextEffect
    obtain ⟨p, hp, -⟩ := hl
    have hlt := (ho.tasks hp).number
    refine ⟨d', hd', hv'.create detached ?_ ?_⟩
    · rintro heq
      exact Nat.lt_irrefl _ (Option.some.inj heq ▸ hlt)
    · intro y hy ht
      simp only [List.mem_cons, List.not_mem_nil, or_false] at hy
      rcases hy with rfl | rfl
      · cases ht
        exact Nat.lt_irrefl _ hlt
      · cases ht
  | triggerSuspends _ _ _ hs hq =>
    cases hx
    exact hv.asks hd rfl ha ⟨rfl, rfl, rfl, Nat.le_succ _, rfl, _, rfl, hs.stepless⟩
      (Nat.lt_succ_self _) hq.mute hT.get?_nextEffect hinsert (fun h => by cases h)
      fun ph _ => Instr.voices_begun fun _ h => by cases h
  | @triggerOpens _ _ _ _ _ kind _ es =>
    cases hx
    refine hv.asks hd rfl ha ⟨rfl, rfl, rfl, Nat.le_succ _, rfl, [], ?_, .nil⟩
      (Nat.lt_succ_self _) .nil hT.get?_nextEffect hinsert (fun h => by cases h) fun ph _ => trivial
    simp [Core.number, Core.suspend]
  | @triggerCalls _ _ b nests =>
    cases hx
    refine hv.asks hd rfl ha (.number k)
      (Nat.lt_succ_self _) .nil hT.get?_nextEffect (fun h => Or.inl (hold h)) (fun h => ?_)
      fun ph h => ?_
    · cases h
      exact ⟨rfl, rfl⟩
    · cases nests with
      | nil => exact h.resolve_left fun h => h rfl
      | cons => trivial
  | @triggerCancels _ u b nests _ _ _ v =>
    cases hx
    obtain ⟨d', hd', hv'⟩ := hv.asks (g := .cancelDone ⟨i, u⟩ b nests k.nextEffect) hd rfl ha
      (.number k) (Nat.lt_succ_self _) .nil hT.get?_nextEffect (fun h => Or.inl (hold h)) (fun h => by
        cases h
        exact ⟨rfl, rfl⟩)
      fun ph h => by
        cases nests with
        | nil => exact h.resolve_left fun h => h rfl
        | cons => trivial
    refine ⟨d', hd', Voiced.reframe (X := []) (G := [.cancel i v]) hv' (fun y hy => by cases hy) ?_⟩
    intro y hy
    cases List.mem_singleton.1 hy
    exact ⟨.of_none rfl rfl t, rfl⟩
  | answerSettles | cancelSettles =>
    cases hx
    refine hv.settles (m := []) hd rfl rfl ha .nil (.refl k) (fun {z w} hz => ⟨?_, hold hz⟩)
      (Or.inr ⟨rfl, rfl⟩) rfl Instr.voices_immediate
    rintro rfl
    obtain ⟨-, -, -, -, hnone⟩ := hT.frames _ List.mem_cons_self
    cases hz.symm.trans hnone
  | @answerSuspends _ _ b nests y result env c rs hs =>
    cases hx
    refine hv.mute (m := []) hd rfl rfl ha ⟨rfl, rfl, rfl, Nat.le_refl _, rfl, _, rfl, hs.stepless⟩
      .nil ?_ rfl fun _ _ => Instr.voices_begun fun _ h => by cases h
    intro z w hz
    rcases hinsert hz with h | ⟨rfl, h⟩
    · exact Or.inl h
    · exact Or.inr ⟨rfl, h⟩
  | begunWithdraws =>
    cases hx
    exact hv.mute hd rfl rfl ha (.waits k _) (.detach _ _)
      (fun hz => Or.inl (hold (Waits.get?_of_get?_detach hz))) rfl fun _ _ => trivial
  | raceHalt | allHalt =>
    cases hx
    exact hv.mute hd rfl rfl ha (.waits k _) (.detach _ _)
      (fun hz => Or.inl (hold (Waits.get?_of_get?_detach hz))) rfl
      fun _ _ => Instr.voices_begun fun _ h => by cases h
  | raceNext =>
    cases hx
    have htouch := (hst.pending_nest rfl).1
    exact hv.mute (m := []) hd rfl rfl ha (.waits k _) .nil (fun hz => Or.inl (htouch.kept hz)) rfl
      fun _ _ => trivial
  | raceFull =>
    cases hx
    have htouch := (hst.pending_nest rfl).1
    exact hv.mute (m := []) hd rfl rfl ha (.waits k _) .nil (fun hz => Or.inl (htouch.kept hz)) rfl
      fun _ _ => Instr.voices_begun fun _ h => by cases h
  | raceLost h | allLost _ h =>
    obtain ⟨w, hw, -⟩ := hst.get?_nest
    cases h.symm.trans hw
  | @raceDecided _ _ b y slot rest nests signal w h =>
    cases hx
    obtain ⟨w', hw, hwt, hwl, -⟩ := hst.get?_nest
    cases h.symm.trans hw
    refine hv.settles hd rfl rfl ha (.withdrawn fun p hp => Waits.withdrawn_of_mem_closeRace hp)
      (.waits k _) (fun {z w} hz => ?_) (Or.inl ⟨_, h, hwt, hwl⟩) rfl Instr.voices_immediate
    have hz := Waits.get?_of_get?_closeRace hz
    rw [Table.get?_erase] at hz
    split at hz
    · cases hz
    · exact ⟨‹_›, hold hz⟩
  | @allFailed _ _ b y slot rest nests signal w hs h =>
    cases hx
    obtain ⟨w', hw, hwt, hwl, -⟩ := hst.get?_nest
    cases h.symm.trans hw
    have hp := Waits.prunes_close h hwt
    exact hv.settles hd rfl rfl ha (.detachEach _ _) (.waits k _)
      (fun hz => ⟨(hp.sub hz).1, hold (hp.sub hz).2⟩) (Or.inl ⟨_, h, hwt, hwl⟩) rfl
      Instr.voices_immediate
  | allNext hk =>
    cases hx
    rcases hk with ⟨member, rfl, rfl⟩ | ⟨v, rfl, rfl⟩
    · have htouch := (hst.pending_nest rfl).1
      exact hv.mute (m := []) hd rfl rfl ha (.waits k _) .nil (fun hz => Or.inl (htouch.kept hz)) rfl
        fun _ _ => trivial
    · have htouch := (hst.value_nest (v := v) rfl).1
      exact hv.mute (m := []) hd rfl rfl ha (.waits k _) .nil (fun hz => Or.inl (htouch.kept hz)) rfl
        fun _ _ => trivial
  | allFull hk =>
    cases hx
    rcases hk with ⟨member, rfl, rfl⟩ | ⟨v, rfl, rfl⟩
    · have htouch := (hst.pending_nest rfl).1
      exact hv.mute (m := []) hd rfl rfl ha (.waits k _) .nil (fun hz => Or.inl (htouch.kept hz)) rfl
        fun _ _ => Instr.voices_begun fun _ h => by cases h
    · have htouch := (hst.value_nest (v := v) rfl).1
      exact hv.mute (m := []) hd rfl rfl ha (.waits k _) .nil (fun hz => Or.inl (htouch.kept hz)) rfl
        fun _ _ => Instr.voices_begun fun _ h => by cases h
  | @allComplete _ u b y slot nests start k₁ w results members hk h hw =>
    cases hx
    obtain ⟨w', hget, hwt, hwl, -⟩ := hst.get?_nest
    have hsettle : ∀ {waits : Waits}, k.waits.Touches waits u [] → waits.get? y = some w →
        Voices i t { k with waits := waits.erase y } [.begun ⟨i, u⟩ b nests
          (.immediate (Waits.collect w.kind)), .drain i] D
          ([Event.settled y (Waits.collect w.kind)].reverse ++ past) := by
      intro waits htouch _
      refine hv.settles (m := []) hd rfl rfl ha .nil (.waits k _) (fun {z w} hz => ?_)
        (Or.inl ⟨w', hget, hwt, hwl⟩) rfl Instr.voices_immediate
      rw [Table.get?_erase] at hz
      split at hz
      · cases hz
      · exact ⟨‹_›, htouch.kept hz⟩
    rcases hk with ⟨member, rfl, rfl⟩ | ⟨v, rfl, rfl⟩
    · exact hsettle (hst.pending_nest rfl).1 h
    · exact hsettle (hst.value_nest (v := v) rfl).1 h
  | leaveSuspended | leaveYielded | leaveFinished | leaveEnded | leaveFailed | leaveHalted =>
    cases hx
    exact absurd rfl (hn _ _)
  | _ => cases hx

end

end SagaMachine
