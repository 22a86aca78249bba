import SagaMachine.Proofs.Decisions
import SagaMachine.Proofs.OneEffect

/-!
# Members come in their order

The members of a combinator are triggered from the first to the last, and only while the combinator is
being started: the frame that starts it says how many were triggered and which ones are left
(`Instr.Musters`), and a pending member reports to the place that it has among those triggered
(`Placed`). So the members that were triggered are the first ones of the combinator
(`Scenario.Visits.members_prefix`), and once it is not being started any more there are no others
(`Scenario.Visits.sealed`).
-/

namespace SagaMachine

/-! ## Combinators that are being started -/

/-- An instruction that knows of no combinator that is being started. -/
def Instr.IsBare : Instr → Prop
  | .trigger _ _ nests _ => nests = []
  | .answer .. | .cancelDone .. | .begun .. => False
  | _ => True

/-- An instruction at work on the start of an effect; a body without combinators is told elsewhere. -/
def Instr.AtWork : Instr → Prop
  | .trigger .. | .answer .. | .cancelDone .. | .begun _ _ (_ :: _) _ => True
  | _ => False

section

variable {i : MiddlewareId} {past es : List Event} {x y : Instr} {k k' : Core} {G : List Instr}
  {D : List TaskId} {m : Nest}

theorem Instr.IsBare.nests (h : y.IsBare) : y.nests = [] := by
  cases y with
  | trigger => exact h
  | answer | cancelDone | begun => exact h.elim
  | _ => rfl

theorem Instr.IsJob.bare (h : y.IsJob) : y.IsBare := by
  cases y with
  | emit | forwarded | schedule => trivial
  | _ => exact h.elim

theorem Instr.IsScript.bare {turn : Turn} (h : y.IsScript turn) : y.IsBare := by
  cases y with
  | advance | polled => trivial
  | _ => exact h.elim

theorem Begins.bare_of_mem {u : TaskId} {expected : Option EffectId} {signal : Option Signal}
    (h : Begins i k u expected signal k' G) (hy : y ∈ G) : y.IsBare := by
  cases h with
  | skip => cases hy
  | _ => cases List.mem_singleton.1 hy; trivial

/-- Combinators are started only by what is at work on the start of an effect. -/
theorem Does.bare_of_mem (h : Does i past x k k' G D es) (hx : ¬ x.AtWork) (hy : y ∈ G) :
    y.IsBare := by
  have hone {g : Instr} (hg : g.IsBare) (hy : y ∈ [g]) : y.IsBare := List.mem_singleton.1 hy ▸ hg
  have heach {α : Type} {f : α → Instr} (hf : ∀ a, (f a).IsBare) (as : List α)
      (hy : y ∈ as.map f) : y.IsBare := by
    obtain ⟨a, -, rfl⟩ := List.mem_map.1 hy
    exact hf a
  cases h with
  | start h | resume h | wake _ _ h => exact h.bare_of_mem hy
  | errand hG =>
    rcases hG with rfl | ⟨g, rfl, hg⟩
    · cases hy
    · exact hone hg.bare hy
  | poll hg | advance hg => exact hone hg.bare hy
  | polledYielded =>
    rw [List.mem_singleton.1 hy]
    rfl
  | triggerHalted | triggerSettles | triggerForks | triggerSuspends | triggerCalls | triggerCancels
  | triggerOpens | answerSettles | answerSuspends | cancelHalted | cancelSettles | raceNext | raceFull
  | raceHalt | raceLost | raceDecided | allHalt | allNext | allFull | allComplete | allFailed
  | allLost => exact absurd trivial hx
  | next =>
    rcases List.mem_cons.1 hy with rfl | hy
    · trivial
    · exact hone (g := .drain i) trivial hy
  | abort =>
    rcases List.mem_append.1 hy with hy | hy
    · exact heach (f := Instr.cancel i) (fun _ => trivial) _ hy
    · exact hone (g := .abortDone ..) trivial hy
  | abortDone | conclude | cascadeComplete | cancelledAll =>
    exact heach (f := Instr.cascade i) (fun _ => trivial) _ hy
  | _ => first | exact absurd hy List.not_mem_nil | (cases List.mem_singleton.1 hy; trivial)

/-- The combinators that are being started are the ones before, but for a new one. -/
theorem Does.nests_of_mem (h : Does i past x k k' G D es) (hy : y ∈ G) (hm : m ∈ y.nests) :
    m.id = k.nextEffect ∨ ∃ m' ∈ x.nests, m'.id = m.id := by
  have hbare (hx : ¬ x.AtWork) : m.id = k.nextEffect ∨ ∃ m' ∈ x.nests, m'.id = m.id := by
    rw [(h.bare_of_mem hx hy).nests] at hm
    cases hm
  cases h with
  | triggerOpens _ he =>
    rw [List.mem_singleton.1 hy] at hm
    rcases List.mem_cons.1 hm with rfl | hm
    · exact Or.inl (Effect.fits_of_fan? he _).2.2.1
    · exact Or.inr ⟨m, hm, rfl⟩
  | raceNext | allNext =>
    rw [List.mem_singleton.1 hy] at hm
    rcases List.mem_cons.1 hm with rfl | hm
    · exact Or.inr ⟨_, List.mem_cons_self, rfl⟩
    · exact Or.inr ⟨m, List.mem_cons_of_mem _ hm, rfl⟩
  | raceFull | raceHalt | raceLost | raceDecided | allHalt | allFull | allComplete | allFailed
  | allLost =>
    cases List.mem_singleton.1 hy
    exact Or.inr ⟨m, List.mem_cons_of_mem _ hm, rfl⟩
  | triggerHalted | triggerSettles | triggerForks | triggerSuspends | triggerCalls | answerSettles
  | answerSuspends | cancelHalted | cancelSettles =>
    cases List.mem_singleton.1 hy
    exact Or.inr ⟨m, hm, rfl⟩
  | triggerCancels =>
    rcases List.mem_cons.1 hy with rfl | hy
    · cases hm
    · cases List.mem_singleton.1 hy
      exact Or.inr ⟨m, hm, rfl⟩
  | _ => exact hbare id

/-- User code lets the driver start, a task be cancelled or an action be sent. -/
theorem Intervenes.eq_of_mem (h : Intervenes i past k k' G es) (hy : y ∈ G) :
    y = .drain i ∨ (∃ t, y = .cancel i t) ∨ ∃ a site, y = .emit i a (.caller site) := by
  have hdrives {k₁ k' : Core} {work G : List Instr} (hd : Drives i k₁ work k' G) :
      ∀ g ∈ G, g ∈ work ∨ g = .drain i := by
    cases hd with
    | within => exact fun g hg => Or.inl hg
    | starts => exact fun g hg => (List.mem_append.1 hg).imp_right List.mem_singleton.1
  cases h with
  | spawns hd | settles _ hd =>
    exact Or.inl ((hdrives hd y hy).resolve_left List.not_mem_nil)
  | cancels hd =>
    rcases hdrives hd y hy with hy | hy
    · exact Or.inr (Or.inl ⟨_, List.mem_singleton.1 hy⟩)
    · exact Or.inl hy
  | sends => exact Or.inr (Or.inr ⟨_, _, List.mem_singleton.1 hy⟩)
  | _ => cases hy

end

/-! ### Nothing is started of what is over -/

/-- None of the combinators that were triggered before is being started, and no member of them was. -/
structure View.Seals (past : List Event) (v : View) : Prop where
  nests : ∀ f ∈ v.frames, ∀ m ∈ f.nests, m.id ∉ triggeredIn past
  keeps : past ⊆ v.past
  sealed : ∀ {t x p e}, .triggered t x (some p) e ∈ v.past → p ∈ triggeredIn past →
    .triggered t x (some p) e ∈ past

section

variable {i : MiddlewareId} {past past₀ es : List Event} {v v' : View}

theorem View.Seals.onto (hv : v.Seals past₀) (es : List Event) (hp : v'.past = es.reverse ++ v.past)
    (ht : triggeredIn es = []) (hF : ∀ f ∈ v'.frames, f ∈ v.frames ∨ f.nests = []) :
    v'.Seals past₀ where
  nests f hf m hm := by
    rcases hF f hf with hf | hn
    · exact hv.nests f hf m hm
    · rw [hn] at hm
      cases hm
  keeps := by
    rw [hp]
    exact fun _ h => List.mem_append_right _ (hv.keeps h)
  sealed hx hpp := by
    rw [hp] at hx
    exact hv.sealed ((List.mem_append.1 hx).resolve_left fun hx =>
      not_triggered_of_nil ht (List.mem_reverse.1 hx)) hpp

theorem View.Seals.move (hv : v.Seals past₀) (hk : Kept i v) (hm : Moves i v v') :
    v'.Seals past₀ := by
  cases hm with
  | @does alive k F D past x k' G D' es hd hu =>
    cases alive with
    | false => cases (hk.sound.framed.dead rfl).1
    | true =>
      have hnew : k.nextEffect ∉ triggeredIn past₀ := fun hm => by
        obtain ⟨t, p, e, ht⟩ := mem_triggeredIn.1 hm
        exact Nat.lt_irrefl _ ((hk.sound.tabled rfl).named (hv.keeps ht))
      refine ⟨fun f hf m hm => ?_, fun _ h => List.mem_append_right _ (hv.keeps h),
        fun {t y p e} hy hp => ?_⟩
      · rcases List.mem_append.1 hf with hf | hf
        · rcases hd.nests_of_mem hf hm with hid | ⟨m', hm', hid⟩
          · rwa [hid]
          · exact hid ▸ hv.nests x List.mem_cons_self m' hm'
        · exact hv.nests f (List.mem_cons_of_mem _ hf) m hm
      · rcases List.mem_append.1 hy with hy | hy
        · obtain ⟨b, nests, rfl, hparent⟩ := hd.trigger_of_triggered (List.mem_reverse.1 hy)
          cases nests with
          | nil => cases hparent
          | cons m nests =>
            rw [Starting.link_parent?] at hparent
            obtain rfl := Option.some.inj hparent
            exact absurd hp (hv.nests _ List.mem_cons_self m List.mem_cons_self)
        · exact hv.sealed hy hp
  | @intervenes k F D past k' G es hi hu =>
    refine hv.onto es rfl hi.idle.2.2.1 fun f hf => ?_
    refine (List.mem_append.1 hf).symm.imp_right fun hf => ?_
    rcases hi.eq_of_mem hf with rfl | ⟨t, rfl⟩ | ⟨a, site, rfl⟩ <;> rfl
  | still => exact hv
  | @drops alive k F t D past hu => exact hv.onto [.bodyDropped t] rfl rfl fun f hf => Or.inl hf
  | @dies k past D hD => exact hv.onto [] rfl rfl fun f hf => absurd hf List.not_mem_nil

/-- Of a combinator that is not being started any more no member is started. -/
theorem Scenario.Visits.sealed {s : Scenario} {c c' : Config} {t : TaskId} {x p : EffectId}
    {e : Effect} (h : s.Visits c) (hi : c.world.Has i)
    (hF : ∀ f ∈ framesOf i c.todo, f.nests = []) (hp : c.Precedes c')
    (hx : .triggered t x (some p) e ∈ c'.world.past i) (ht : p ∈ triggeredIn (c.world.past i)) :
    .triggered t x (some p) e ∈ c.world.past i := by
  have hseals : (c'.view i).Seals (c.world.past i) := by
    clear hx
    induction hp with
    | refl =>
      exact ⟨fun f hf m hm => (by rw [hF f hf] at hm; cases hm), fun _ => id, fun hx _ => hx⟩
    | call hp o budget ih =>
      exact ⟨fun f hf => ih.nests f hf, ih.keeps, ih.sealed⟩
    | step hp hc ih =>
      have hv := h.precedes hp
      have hi' := (h.has_precedes hp).2 hi
      exact ih.move (hv.kept hi') (Config.moves_of_step hv.knows hi' hc)
  exact hseals.sealed hx ht

end

/-! ## Members in their order -/

/-- The member of a combinator that an event triggers. -/
def Event.member? (p : EffectId) : Event → Option (EffectId × Effect)
  | .triggered _ x (some q) e => if q = p then some (x, e) else none
  | _ => none

/-- The members of a combinator that were triggered, the first one first. -/
def membersIn (past : List Event) (p : EffectId) : List (EffectId × Effect) :=
  past.reverse.filterMap (Event.member? p)

/-- The members that are started for a combinator, unless it is decided before. -/
def Effect.members (e : Effect) : List Effect :=
  match e.fan? with
  | some (_, e₀, es) => e₀ :: es
  | none => []

/-- The keys of a race that is accepted, if it has them, and how many members it has. -/
def Effect.race? (e : Effect) : Option (Option (List String) × Nat) := e.fan?.bind fun r => r.1.race?

/-- An effect reports to the place that it has among the members triggered. -/
def Placed (past : List Event) (x : EffectId) : Link → Prop
  | .task => True
  | .race p slot | .all p slot => ((membersIn past p).map Prod.fst)[slot]? = some x

/-- Some members of a combinator were triggered, and these are the other ones. -/
structure Musters (past : List Event) (p : EffectId) (count : Nat) (left : List Effect) : Prop where
  count : (membersIn past p).length = count
  issue : ∃ t q e, .triggered t p q e ∈ past ∧ e.members = (membersIn past p).map Prod.snd ++ left

/-- An effect is the latest member of the innermost combinator, and this one of the next. -/
def Ranked (past : List Event) : List Nest → EffectId → Prop
  | [], _ => True
  | m :: nests, y =>
    Placed past y (Nest.link (m :: nests)) ∧ Musters past m.id (m.slot + 1) m.rest ∧
      Ranked past nests m.id

/-- What a frame knows of the combinators that are being started. -/
def Instr.Musters (past : List Event) : Instr → Prop
  | .trigger _ _ (m :: nests) e =>
    SagaMachine.Musters past m.id m.slot (e :: m.rest) ∧ Ranked past nests m.id
  | .answer _ _ nests id _ _ | .cancelDone _ _ nests id => LeafName past id ∧ Ranked past nests id
  | .begun _ _ nests (.pending id) => Ranked past nests id
  | .begun _ _ nests (.immediate signal) => ∃ z, .settled z signal ∈ past ∧ Ranked past nests z
  | _ => True

section

variable {i : MiddlewareId} {past past' es later : List Event} {x y : Instr} {k k' : Core}
  {G : List Instr} {D : List TaskId} {t : TaskId} {z p : EffectId} {q : Option EffectId} {e : Effect}
  {nests : List Nest} {n : Nat} {left : List Effect} {link : Link}

theorem mem_membersIn : (z, e) ∈ membersIn past p ↔ ∃ t, .triggered t z (some p) e ∈ past := by
  simp only [membersIn, List.mem_filterMap, List.mem_reverse]
  constructor
  · rintro ⟨ev, hev, hz⟩
    unfold Event.member? at hz
    split at hz
    · split at hz
      · rename_i hq
        cases hz
        exact ⟨_, hq ▸ hev⟩
      · cases hz
    · cases hz
  · rintro ⟨t, ht⟩
    exact ⟨_, ht, if_pos rfl⟩

theorem membersIn_onto (es past : List Event) (p : EffectId) :
    membersIn (es.reverse ++ past) p = membersIn past p ++ es.filterMap (Event.member? p) := by
  simp [membersIn]

theorem members_of_silent (h : triggeredIn es = []) (p : EffectId) :
    es.filterMap (Event.member? p) = [] := by
  refine List.filterMap_eq_nil_iff.2 fun ev hev => ?_
  cases ev with
  | triggered t y q e => exact absurd hev (not_triggered_of_nil h)
  | _ => rfl

theorem membersIn_silent (h : triggeredIn es = []) (past : List Event) (p : EffectId) :
    membersIn (es.reverse ++ past) p = membersIn past p := by
  rw [membersIn_onto, members_of_silent h, List.append_nil]

/-- An effect is triggered: it comes last among the members of its combinator. -/
theorem membersIn_triggered (h : triggeredIn later = []) (past : List Event) (p : EffectId) :
    membersIn ((.triggered t z q e :: later).reverse ++ past) p =
      membersIn past p ++ if q = some p then [(z, e)] else [] := by
  rw [membersIn_onto]
  cases q with
  | none => exact congrArg _ (members_of_silent h p)
  | some q =>
    by_cases hq : q = p
    · have hev : Event.member? p (.triggered t z (some q) e) = some (z, e) := if_pos hq
      rw [if_pos (congrArg some hq), List.filterMap_cons_some hev, members_of_silent h]
    · have hev : Event.member? p (.triggered t z (some q) e) = none := if_neg hq
      rw [if_neg (fun he => hq (Option.some.inj he)), List.filterMap_cons_none hev,
        members_of_silent h]

/-- A member is triggered after its combinator. -/
theorem Regular.of_member (h : Regular past) (hm : .triggered t z (some p) e ∈ past) :
    p ∈ triggeredIn past ∧ p < z := by
  obtain ⟨later, earlier, rfl⟩ := List.append_of_mem hm
  obtain ⟨hlater, hparent⟩ := h.split
  obtain ⟨p', e', hp⟩ := hparent p rfl
  have hp : p ∈ triggeredIn earlier := mem_triggeredIn.2 ⟨t, p', e', hp⟩
  refine ⟨?_, hlater p hp⟩
  rw [triggeredIn_append]
  exact List.mem_append_right _ (List.mem_cons_of_mem _ hp)

theorem membersIn_of_new (h : Regular past) (hp : p ∉ triggeredIn past) : membersIn past p = [] := by
  refine List.eq_nil_iff_forall_not_mem.2 fun q hq => ?_
  obtain ⟨t, ht⟩ := mem_membersIn.1 hq
  exact hp (h.of_member ht).1

/-! ### Later events -/

theorem Placed.onto (h : Placed past z link) (es : List Event) : Placed (es.reverse ++ past) z link := by
  have hget {p : EffectId} {slot : Nat} (hg : ((membersIn past p).map Prod.fst)[slot]? = some z) :
      ((membersIn (es.reverse ++ past) p).map Prod.fst)[slot]? = some z := by
    obtain ⟨hlt, hz⟩ := List.getElem?_eq_some_iff.1 hg
    rw [membersIn_onto, List.map_append, List.getElem?_append_left hlt, hg]
  cases link with
  | task => trivial
  | race p slot | all p slot => exact hget h

theorem Musters.congr (h : Musters past p n left) (hsub : past ⊆ past')
    (hm : membersIn past' p = membersIn past p) : Musters past' p n left := by
  obtain ⟨hcount, t, q, e, ht, hmembers⟩ := h
  refine ⟨?_, t, q, e, hsub ht, ?_⟩
  · rw [hm]
    exact hcount
  · rw [hm]
    exact hmembers

theorem Placed.congr {m : Nest} (h : Placed past z (Nest.link (m :: nests)))
    (hm : membersIn past' m.id = membersIn past m.id) : Placed past' z (Nest.link (m :: nests)) := by
  cases m with
  | race p slot rest | all p slot rest =>
    have hm : membersIn past' p = membersIn past p := hm
    show ((membersIn past' p).map Prod.fst)[slot]? = some z
    rw [hm]
    exact h

theorem Ranked.placed (h : Ranked past nests z) : Placed past z (Nest.link nests) := by
  cases nests with
  | nil => trivial
  | cons m nests => exact h.1

theorem Ranked.congr (h : Ranked past nests z) (hsub : past ⊆ past')
    (hm : ∀ m ∈ nests, membersIn past' m.id = membersIn past m.id) : Ranked past' nests z := by
  induction nests generalizing z with
  | nil => trivial
  | cons m nests ih =>
    obtain ⟨hplaced, hmusters, hranked⟩ := h
    have hm₀ := hm m List.mem_cons_self
    exact ⟨hplaced.congr hm₀, hmusters.congr hsub hm₀,
      ih hranked fun m' hm' => hm m' (List.mem_cons_of_mem _ hm')⟩

theorem Instr.Musters.congr (h : x.Musters past) (hsub : past ⊆ past')
    (hm : ∀ p, membersIn past' p = membersIn past p) : x.Musters past' := by
  have hleaf {z : EffectId} (hl : LeafName past z) : LeafName past' z := by
    obtain ⟨t, q, e, ht, he⟩ := hl
    exact ⟨t, q, e, hsub ht, he⟩
  cases x with
  | trigger turn b nests e =>
    cases nests with
    | nil => trivial
    | cons m nests => exact ⟨h.1.congr hsub (hm _), h.2.congr hsub fun _ _ => hm _⟩
  | answer | cancelDone => exact ⟨hleaf h.1, h.2.congr hsub fun _ _ => hm _⟩
  | begun turn b nests start =>
    cases start with
    | pending id => exact Ranked.congr h hsub fun _ _ => hm _
    | immediate signal =>
      obtain ⟨z, hz, hranked⟩ := h
      exact ⟨z, hsub hz, hranked.congr hsub fun _ _ => hm _⟩
    | halt => trivial
  | _ => trivial

theorem Instr.IsBare.musters (h : x.IsBare) : x.Musters past := by
  cases x with
  | trigger turn b nests e =>
    obtain rfl : nests = [] := h
    trivial
  | answer | cancelDone | begun => exact h.elim
  | _ => trivial

/-! ### The next steps -/

theorem WaitKind.slot_nest (kind : WaitKind) (id : EffectId) (es : List Effect) :
    (kind.nest id es).slot = 0 ∧ (kind.nest id es).rest = es := by
  cases kind <;> exact ⟨rfl, rfl⟩

/-- Effects are triggered by one instruction only. -/
theorem Does.silent (h : Does i past x k k' G D es)
    (hx : ∀ turn b nests e, x ≠ .trigger turn b nests e) : triggeredIn es = [] := by
  refine List.eq_nil_iff_forall_not_mem.2 fun y hy => ?_
  obtain ⟨t, q, e, ht⟩ := mem_triggeredIn.1 hy
  obtain ⟨b, nests, hxt, -⟩ := h.trigger_of_triggered ht
  exact hx _ _ _ _ hxt

/-- An effect is triggered, if its task is live, and no other one. -/
theorem Does.issues {b : Body} (h : Does i past (.trigger ⟨i, t⟩ b nests e) k k' G D es) :
    es = [] ∨ ∃ later, es = .triggered t k.nextEffect (Nest.link nests).parent? e :: later ∧
      triggeredIn later = [] := by
  cases h with
  | triggerHalted => exact Or.inl rfl
  | triggerSettles _ _ hq =>
    exact Or.inr ⟨_, rfl, (triggeredIn_append _ _).trans (by rw [hq.triggeredIn]; rfl)⟩
  | triggerSuspends _ _ _ _ hq => exact Or.inr ⟨_, rfl, hq.triggeredIn⟩
  | triggerForks | triggerCalls | triggerCancels | triggerOpens => exact Or.inr ⟨_, rfl, rfl⟩

/-- While no effect is triggered, frames know what those before them knew. -/
theorem Does.musters (h : Does i past x k k' G D es) (hx : x.Musters past)
    (hnt : ∀ turn b nests e, x ≠ .trigger turn b nests e) (hy : y ∈ G) :
    y.Musters (es.reverse ++ past) := by
  have hsub : past ⊆ es.reverse ++ past := fun _ => List.mem_append_right _
  have hm := membersIn_silent (h.silent hnt) past
  have hnew {ev : Event} (hev : ev ∈ es) : ev ∈ es.reverse ++ past :=
    List.mem_append_left _ (List.mem_reverse.2 hev)
  have hx := hx.congr hsub hm
  have hbare (hx : ¬ x.AtWork) : y.Musters (es.reverse ++ past) := (h.bare_of_mem hx hy).musters
  cases h with
  | triggerHalted | triggerSettles | triggerForks | triggerSuspends | triggerCalls | triggerCancels
  | triggerOpens => exact absurd rfl (hnt _ _ _ _)
  | cancelHalted | raceHalt | raceLost | allHalt =>
    cases List.mem_singleton.1 hy
    trivial
  | answerSettles | cancelSettles =>
    cases List.mem_singleton.1 hy
    exact ⟨_, hnew List.mem_cons_self, hx.2⟩
  | answerSuspends =>
    cases List.mem_singleton.1 hy
    exact hx.2
  | raceNext =>
    cases List.mem_singleton.1 hy
    exact hx.2
  | allNext hk =>
    cases List.mem_singleton.1 hy
    rcases hk with ⟨member, rfl, -⟩ | ⟨v, rfl, -⟩
    · exact hx.2
    · obtain ⟨z, -, hranked⟩ := hx
      exact hranked.2
  | raceFull =>
    cases List.mem_singleton.1 hy
    exact hx.2.2
  | allFull hk =>
    cases List.mem_singleton.1 hy
    rcases hk with ⟨member, rfl, -⟩ | ⟨v, rfl, -⟩
    · exact hx.2.2
    · obtain ⟨z, -, hranked⟩ := hx
      exact hranked.2.2
  | raceDecided | allFailed =>
    cases List.mem_singleton.1 hy
    obtain ⟨z, -, hranked⟩ := hx
    exact ⟨_, hnew (List.mem_append_right _ List.mem_cons_self), hranked.2.2⟩
  | allLost =>
    cases List.mem_singleton.1 hy
    obtain ⟨z, -, hranked⟩ := hx
    exact ⟨_, hnew List.mem_cons_self, hranked.2.2⟩
  | allComplete hk =>
    cases List.mem_singleton.1 hy
    rcases hk with ⟨member, rfl, -⟩ | ⟨v, rfl, -⟩
    · exact ⟨_, hnew List.mem_cons_self, hx.2.2⟩
    · obtain ⟨z, -, hranked⟩ := hx
      exact ⟨_, hnew List.mem_cons_self, hranked.2.2⟩
  | _ => exact hbare id

/-- The effect that is triggered is the next member of its combinator. -/
theorem Ranked.of_trigger {turn : Turn} {b : Body}
    (hx : (Instr.trigger turn b nests e).Musters past) {waits : Waits} {u : TaskId}
    (hopen : Open waits u nests) (h : triggeredIn later = []) :
    Ranked ((.triggered t z (Nest.link nests).parent? e :: later).reverse ++ past) nests z := by
  cases nests with
  | nil => trivial
  | cons m nests =>
    obtain ⟨⟨hcount, u, q, e', hu, hmembers⟩, hranked⟩ := hx
    have hsub : past ⊆ (.triggered t z (Nest.link (m :: nests)).parent? e :: later).reverse ++ past :=
      fun _ => List.mem_append_right _
    have hm := membersIn_triggered (z := z) (t := t) (e := e)
      (q := (Nest.link (m :: nests)).parent?) h past
    rw [Starting.link_parent?] at hm hsub ⊢
    have hself := (hm m.id).trans (by rw [if_pos rfl])
    refine ⟨?_, ⟨?_, u, q, e', hsub hu, ?_⟩, hranked.congr hsub fun m' hm' => ?_⟩
    · have hget : ((membersIn past m.id ++ [(z, e)]).map Prod.fst)[m.slot]? = some z := by
        simp [← hcount]
      cases m with
      | race p slot rest | all p slot rest =>
        exact (congrArg (fun l => (l.map Prod.fst)[slot]?) hself).trans hget
    · rw [hself, List.length_append, hcount]
      rfl
    · rw [hself, hmembers, List.map_append, List.append_assoc]
      rfl
    · have hne : m.id ≠ m'.id := (hopen.2.1 m' hm').ne'
      rw [hm, if_neg (fun he => hne (Option.some.inj he)), List.append_nil]

/-- Where an effect is triggered, frames know that it is the next member. -/
theorem Does.musters_trigger {b : Body}
    (h : Does i past (.trigger ⟨i, t⟩ b nests e) k k' G D es)
    (hx : (Instr.trigger ⟨i, t⟩ b nests e).Musters past) (hopen : Open k.waits t nests)
    (hr : Regular past) (hnew : k.nextEffect ∉ triggeredIn past) (hy : y ∈ G) :
    y.Musters (es.reverse ++ past) := by
  have hranked {later : List Event} (hl : triggeredIn later = []) := Ranked.of_trigger
    (t := t) (z := k.nextEffect) hx hopen hl
  have hev {ev : Event} (hev : ev ∈ es) : ev ∈ es.reverse ++ past :=
    List.mem_append_left _ (List.mem_reverse.2 hev)
  cases h with
  | triggerHalted =>
    cases List.mem_singleton.1 hy
    trivial
  | triggerSettles _ _ hq =>
    cases List.mem_singleton.1 hy
    exact ⟨_, hev (by simp), hranked ((triggeredIn_append _ _).trans (by rw [hq.triggeredIn]; rfl))⟩
  | triggerForks =>
    cases List.mem_singleton.1 hy
    exact ⟨_, hev (by simp), hranked rfl⟩
  | triggerSuspends _ _ _ _ hq =>
    cases List.mem_singleton.1 hy
    exact hranked hq.triggeredIn
  | triggerCalls _ he =>
    cases List.mem_singleton.1 hy
    exact ⟨⟨_, _, _, hev List.mem_cons_self, he⟩, hranked rfl⟩
  | triggerCancels _ he =>
    rcases List.mem_cons.1 hy with rfl | hy
    · trivial
    · cases List.mem_singleton.1 hy
      exact ⟨⟨_, _, _, hev List.mem_cons_self, he⟩, hranked rfl⟩
  | @triggerOpens k t b nests e kind e₀ rest hl he =>
    cases List.mem_singleton.1 hy
    obtain ⟨hslot, hrest⟩ := kind.slot_nest k.nextEffect rest
    have hid := (Effect.fits_of_fan? he k.nextEffect).2.2.1
    have hnone : membersIn ([.triggered t k.nextEffect (Nest.link nests).parent? e].reverse ++ past)
        k.nextEffect = [] := by
      rw [membersIn_triggered rfl, membersIn_of_new hr hnew, if_neg, List.append_nil]
      cases nests with
      | nil => nofun
      | cons m nests =>
        rw [Starting.link_parent?]
        rintro hp
        obtain ⟨t', q, e', ht', -⟩ := hx.1.issue
        exact hnew (mem_triggeredIn.2 ⟨t', q, e', Option.some.inj hp ▸ ht'⟩)
    refine ⟨?_, ?_⟩
    · rw [hslot, hrest, hid]
      exact ⟨by rw [hnone]; rfl, t, _, e, hev List.mem_cons_self, by rw [hnone, Effect.members, he]; rfl⟩
    · rw [hid]
      exact hranked rfl

/-! ### What is pending -/

/-- A pending effect reports to its place, and a race has the keys of its effect. -/
structure Entered (past : List Event) (z : EffectId) (wait : Wait) : Prop where
  placed : Placed past z wait.link
  race : ∃ t q e, .triggered t z q e ∈ past ∧ wait.kind.race? = e.race?

theorem Entered.onto {wait : Wait} (h : Entered past z wait) (es : List Event) :
    Entered (es.reverse ++ past) z wait := by
  obtain ⟨placed, t, q, e, ht, he⟩ := h
  exact ⟨placed.onto es, t, q, e, List.mem_append_right _ ht, he⟩

theorem Entered.spends {waits waits' : Waits} {ps : List Passage} {wait : Wait}
    (h : ∀ {wait}, waits.get? z = some wait → Entered past z wait) (hw : waits.Spends ps waits')
    (hz : waits'.get? z = some wait) : Entered past z wait := by
  obtain ⟨w, hw, -, hlink, -, hrace⟩ := hw.old hz
  obtain ⟨placed, t, q, e, ht, he⟩ := h hw
  exact ⟨hlink ▸ placed, t, q, e, ht, hrace.symm.trans he⟩

theorem Effect.race?_eq_none (he : e.fan? = none) : e.race? = none := by rw [race?, he]; rfl

/-- What is pending reports to its place also after an effect was triggered. -/
theorem Does.entered_trigger {b : Body} {wait : Wait}
    (h : Does i past (.trigger ⟨i, t⟩ b nests e) k k' G D es)
    (hx : (Instr.trigger ⟨i, t⟩ b nests e).Musters past) (hopen : Open k.waits t nests)
    (hk : ∀ {wait}, k.waits.get? z = some wait → Entered past z wait)
    (hz : k'.waits.get? z = some wait) : Entered (es.reverse ++ past) z wait := by
  have hinsert {u : TaskId} {kind : WaitKind} {later : List Event} (hl : triggeredIn later = [])
      (hes : es = .triggered t k.nextEffect (Nest.link nests).parent? e :: later)
      (hkind : kind.race? = e.race?)
      (hz : (k.waits.insert k.nextEffect ⟨u, Nest.link nests, kind⟩).get? z = some wait) :
      Entered (es.reverse ++ past) z wait := by
    rw [Table.get?_insert] at hz
    split at hz
    · rename_i hzn
      cases hz
      subst hes
      subst hzn
      exact ⟨(Ranked.of_trigger hx hopen hl).placed, t, _, e,
        List.mem_append_left _ (List.mem_reverse.2 List.mem_cons_self), hkind⟩
    · exact (hk hz).onto es
  cases h with
  | triggerHalted | triggerSettles | triggerCalls | triggerCancels => exact (hk hz).onto _
  | triggerForks =>
    rw [Core.create_eq] at hz
    exact (hk hz).onto _
  | triggerSuspends _ he haw _ hq =>
    exact hinsert hq.triggeredIn rfl (haw.isLeaf.race?_eq.trans (Effect.race?_eq_none he).symm) hz
  | triggerOpens _ he => exact hinsert rfl rfl (by rw [Effect.race?, he]; rfl) hz

theorem LeafName.race {kind : WaitKind} (h : LeafName past z) (hk : kind.race? = none) :
    ∃ t q e, .triggered t z q e ∈ past ∧ kind.race? = e.race? := by
  obtain ⟨t, q, e, ht, he⟩ := h
  exact ⟨t, q, e, ht, hk.trans (Effect.race?_eq_none he).symm⟩

/-- What is pending reports to its place. -/
theorem Does.entered {wait : Wait} (h : Does i past x k k' G D es) (hx : x.Musters past)
    (hs : x.Starts k) (hk : ∀ {wait}, k.waits.get? z = some wait → Entered past z wait)
    (hz : k'.waits.get? z = some wait) : Entered (es.reverse ++ past) z wait := by
  cases h.deals hs with
  | walks _ _ hw => exact (Entered.spends hk hw hz).onto es
  | issues hxt =>
    obtain ⟨b, nests, rfl⟩ := hxt
    exact h.entered_trigger hx hs hk hz
  | concludes hxa =>
    cases x with
    | answer turn b nests id =>
      cases h with
      | answerSettles => exact (hk hz).onto _
      | answerSuspends =>
        have hz : Table.get? (Table.insert _ _ _) z = some wait := hz
        rw [Table.get?_insert] at hz
        split at hz
        · rename_i hzn
          cases hz
          exact ⟨hzn ▸ hx.2.placed, hzn ▸ hx.1.race rfl⟩
        · exact hk hz
    | cancelDone turn b nests id =>
      cases h with
      | cancelHalted => exact hk hz
      | cancelSettles => exact (hk hz).onto _
    | _ => cases hxa
  | halts _ _ hk' =>
    subst hk'
    exact (hk hz).onto es

/-! ### The invariant -/

/-- The members of combinators come in their order. -/
structure View.Mustered (v : View) : Prop where
  first : ∀ {t p q e}, .triggered t p q e ∈ v.past → (membersIn v.past p).map Prod.snd <+: e.members
  entries : ∀ {x wait}, v.core.waits.get? x = some wait → Entered v.past x wait
  frames : ∀ f ∈ v.frames, f.Musters v.past

theorem View.Mustered.start : View.Mustered ⟨true, Engine.core {}, [], [], []⟩ where
  first hu := absurd hu List.not_mem_nil
  entries h := by cases h
  frames _ hf := absurd hf List.not_mem_nil

/-- The next member of a combinator is triggered, or the first effect of a body. -/
theorem first_of_trigger {turn : Turn} {b : Body}
    (hx : (Instr.trigger turn b nests e).Musters past) (h : triggeredIn later = [])
    (hr : Regular past) (hnew : z ∉ triggeredIn past)
    (hfirst : ∀ {u p q e}, .triggered u p q e ∈ past → (membersIn past p).map Prod.snd <+: e.members)
    {u : TaskId} {e' : Effect}
    (hu : .triggered u p q e' ∈ (.triggered t z (Nest.link nests).parent? e :: later).reverse ++ past) :
    (membersIn ((.triggered t z (Nest.link nests).parent? e :: later).reverse ++ past) p).map Prod.snd
      <+: e'.members := by
  have hparent (hp : (Nest.link nests).parent? = some p) : ∃ count left,
      SagaMachine.Musters past p count (e :: left) := by
    cases nests with
    | nil => cases hp
    | cons m nests =>
      rw [Starting.link_parent?] at hp
      cases hp
      exact ⟨_, _, hx.1⟩
  rw [membersIn_triggered h]
  have hold : .triggered u p q e' ∈ past ∨ p = z := by
    rcases List.mem_append.1 hu with hu | hu
    · rcases List.mem_cons.1 (List.mem_reverse.1 hu) with hu | hu
      · cases hu
        exact Or.inr rfl
      · exact absurd hu (not_triggered_of_nil h)
    · exact Or.inl hu
  rcases hold with hu | rfl
  · split
    · rename_i hp
      obtain ⟨count, left, -, t', q', e₁, ht', hmembers⟩ := hparent hp
      obtain ⟨-, -, rfl⟩ := hr.triggered_once ht' hu
      rw [hmembers, List.map_append]
      exact ⟨left, by rw [List.append_assoc]; rfl⟩
    · rw [List.append_nil]
      exact hfirst hu
  · rw [membersIn_of_new hr hnew, if_neg, List.append_nil]
    · exact List.nil_prefix
    · intro hp
      obtain ⟨count, left, -, t', q', e₁, ht', -⟩ := hparent hp
      exact hnew (mem_triggeredIn.2 ⟨t', q', e₁, ht'⟩)

/-- Nothing is triggered, and nothing becomes pending. -/
theorem View.Mustered.onto {v v' : View} (hv : v.Mustered) (es : List Event)
    (hp : v'.past = es.reverse ++ v.past) (ht : triggeredIn es = [])
    (hw : ∀ {z wait}, v'.core.waits.get? z = some wait → v.core.waits.get? z = some wait)
    (hF : ∀ f ∈ v'.frames, f ∈ v.frames ∨ f.Musters v'.past) : v'.Mustered where
  first hu := by
    rw [hp] at hu ⊢
    rw [membersIn_silent ht]
    exact hv.first ((List.mem_append.1 hu).resolve_left fun hu =>
      not_triggered_of_nil ht (List.mem_reverse.1 hu))
  entries hz := by
    rw [hp]
    exact (hv.entries (hw hz)).onto es
  frames f hf := by
    rcases hF f hf with hf | hf
    · rw [hp]
      exact (hv.frames f hf).congr (fun _ => List.mem_append_right _) (membersIn_silent ht _)
    · exact hf

theorem View.Mustered.move {v v' : View} (hv : v.Mustered) (hk : Kept i v) (hm : Moves i v v') :
    v'.Mustered := by
  cases hm with
  | @does alive k F D past x k' G D' es hd hu =>
    cases alive with
    | false => cases (hk.sound.framed.dead rfl).1
    | true =>
      have hx := hv.frames x List.mem_cons_self
      have hT := hk.sound.tabled rfl
      have hs := hT.frames x List.mem_cons_self
      have hentered {z : EffectId} {wait : Wait} (hz : k'.waits.get? z = some wait) :
          Entered (es.reverse ++ past) z wait := hd.entered hx hs hv.entries hz
      by_cases hxt : ∃ turn b nests e, x = .trigger turn b nests e
      · obtain ⟨⟨j, t⟩, b, nests, e, rfl⟩ := hxt
        obtain rfl : j = i := by cases hd <;> rfl
        obtain ⟨-, rfl⟩ := hk.sound.framed.stack.of_turn rfl
        refine ⟨fun {u p q e'} hu => ?_, hentered, fun f hf => ?_⟩
        · rcases hd.issues with rfl | ⟨later, rfl, hlater⟩
          · exact hv.first hu
          · exact first_of_trigger hx hlater hk.regular hT.unused hv.first hu
        · rcases List.mem_append.1 hf with hf | hf
          · exact hd.musters_trigger hx hs hk.regular hT.unused hf
          · cases List.mem_singleton.1 hf
            trivial
      · have hxt : ∀ turn b nests e, x ≠ .trigger turn b nests e :=
          fun turn b nests e he => hxt ⟨turn, b, nests, e, he⟩
        have hsilent := hd.silent hxt
        have hsub : past ⊆ es.reverse ++ past := fun _ => List.mem_append_right _
        refine ⟨fun {t p q e} hu => ?_, hentered, fun f hf => ?_⟩
        · show (membersIn (es.reverse ++ past) p).map Prod.snd <+: e.members
          rw [membersIn_silent hsilent]
          exact hv.first ((List.mem_append.1 hu).resolve_left fun hu =>
            not_triggered_of_nil hsilent (List.mem_reverse.1 hu))
        · rcases List.mem_append.1 hf with hf | hf
          · exact hd.musters hx hxt hf
          · exact (hv.frames f (List.mem_cons_of_mem _ hf)).congr hsub (membersIn_silent hsilent _)
  | @intervenes k F D past k' G es hi hu =>
    obtain ⟨-, hwaits, ht, -⟩ := hi.idle
    refine hv.onto es rfl ht (fun hz => hwaits ▸ hz) fun f hf => ?_
    refine (List.mem_append.1 hf).symm.imp_right fun hf => ?_
    rcases hi.eq_of_mem hf with rfl | ⟨t, rfl⟩ | ⟨a, site, rfl⟩ <;> trivial
  | still => exact hv
  | @drops alive k F t D past hu =>
    exact hv.onto [.bodyDropped t] rfl rfl id fun f hf => Or.inl hf
  | @dies k past D hD =>
    exact hv.onto [] rfl rfl nofun fun f hf => absurd hf List.not_mem_nil

end

namespace Scenario.Visits

variable {s : Scenario} {c : Config} {i : MiddlewareId} {t : TaskId} {p : EffectId}
  {q : Option EffectId} {e : Effect}

theorem mustered (h : s.Visits c) (hi : c.world.Has i) : (c.view i).Mustered :=
  (h.invariant (P := fun v => Kept i v ∧ v.Mustered)
    ⟨⟨.start i, .nil, fun _ => .start⟩, .start⟩
    (fun hv hm => ⟨hv.1.move hm, hv.2.move hv.1 hm⟩) hi).2

/-- The members of a combinator that were triggered are its first ones, in their order. -/
theorem members_prefix (h : s.Visits c) (hi : c.world.Has i)
    (hp : .triggered t p q e ∈ c.world.past i) :
    (membersIn (c.world.past i) p).map Prod.snd <+: e.members := (h.mustered hi).first hp

end Scenario.Visits

end SagaMachine
