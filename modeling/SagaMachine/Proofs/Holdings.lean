import SagaMachine.Proofs.Custody
import SagaMachine.Proofs.Sources

/-!
# Takes that were given a value

A channel with unlimited room that only sagas take from gives each of its values to one take at most.
The value is then on its way to the take, and comes there, if the take is not withdrawn in between.

Main statement: `Scenario.Reserves.values_kept`.
-/

namespace SagaMachine

/-- An instruction of user code that takes from a channel itself. -/
def Instr.takesByHand (d : ChannelId) (w : World) : Instr → Bool
  | .op _ _ (.take name _ _ _) => w.channelNames.get? name == some d
  | _ => false

/-- A configuration that a scenario can come to while only sagas take from a channel, whose buffer has
unlimited room. -/
inductive Scenario.Reserves (s : Scenario) (d : ChannelId) : Config → Prop
  | start {w : World} (h : s.setUp = .ok w) (hd : w.channels.get? d = some { buffer := .unbounded }) :
      s.Reserves d ⟨[], w⟩
  | call {w : World} (h : s.Reserves d ⟨[], w⟩) (o : Op) (budget : Nat) :
      s.Reserves d ⟨[.op .outside .empty o], { w with reply := none, budget }⟩
  | step {x : Instr} {rest : List Instr} {w : World} {c' : Config} (h : s.Reserves d ⟨x :: rest, w⟩)
      (hx : x.takesByHand d w = false) (hc : Config.step ⟨x :: rest, w⟩ = some c') : s.Reserves d c'

theorem Scenario.Reserves.visits {s : Scenario} {d : ChannelId} {c : Config} (h : s.Reserves d c) :
    s.Visits c := by
  induction h with
  | start h => exact .start h
  | call _ o budget ih => exact .call ih o budget
  | step _ _ hc ih => exact .step ih hc

section

variable {s : Scenario} {c c' next : Config} {w w' : World} {d : ChannelId}
  {channel channel' : Channel Sink} {given given' : List Acceptance} {r : EffectRef} {x : Instr}
  {rest : List Instr} {p : Pattern} {v v' : Value} {signal : Signal} {source : Source}

/-! ## Who was given a value -/

theorem mem_takers_iff : r ∈ given.filterMap Acceptance.taker ↔ ∃ v, Gives given r v := by
  rw [List.mem_filterMap]
  constructor
  · rintro ⟨a, ha, hr⟩
    exact ⟨a.value, a, ha, hr, rfl⟩
  · rintro ⟨v, a, ha, hr, -⟩
    exact ⟨a, ha, hr⟩

/-- A take is given one value. -/
theorem Gives.unique (hn : (given.filterMap Acceptance.taker).Nodup) (h : Gives given r v)
    (h' : Gives given r v') : v = v' := by
  induction given with
  | nil =>
    obtain ⟨a, ha, -⟩ := h
    cases ha
  | cons b given ih =>
    obtain ⟨a, ha, hr, rfl⟩ := h
    obtain ⟨a', ha', hr', rfl⟩ := h'
    have htail : (given.filterMap Acceptance.taker).Nodup :=
      hn.sublist ((List.sublist_cons_self b given).filterMap _)
    have hhead : ∀ a ∈ given, b.taker = some r → a.taker ≠ some r := by
      intro a ha hb hr
      rw [List.filterMap_cons_some hb] at hn
      exact (List.nodup_cons.1 hn).1 (List.mem_filterMap.2 ⟨a, ha, hr⟩)
    rcases List.mem_cons.1 ha with hab | hm <;> rcases List.mem_cons.1 ha' with hab' | hm'
    · rw [hab, hab']
    · exact absurd hr' (hhead a' hm' (hab ▸ hr))
    · exact absurd hr (hhead a hm (hab' ▸ hr'))
    · exact ih htail ⟨a, hm, hr, rfl⟩ ⟨a', hm', hr', rfl⟩

/-- Whoever was given a value has got it, was withdrawn, or is about to get it. -/
structure Config.Retains (c : Config) (d : ChannelId) (given : List Acceptance) : Prop where
  got : ∀ {r v}, Gives given r v → c.world.Alive r.mw →
    .settled r.effect (.value v) ∈ c.world.past r.mw ∨ .withdrawn r.effect ∈ c.world.past r.mw ∨
      r.effect ∉ endedIn (c.world.past r.mw) ∧ c.Brings r (.value v)
  /-- What is on its way to a take is the value that it was given, or END. -/
  brought : ∀ {r p signal}, c.world.TakesFrom r (.channel d) p → c.world.Alive r.mw →
    c.Brings r signal → (∃ v, signal = .value v ∧ Gives given r v) ∨
      signal = .ended ∧ ∀ v, ¬ Gives given r v
  /-- A take gets no value that it was not given. -/
  settled : ∀ {r p v}, c.world.TakesFrom r (.channel d) p →
    .settled r.effect (.value v) ∈ c.world.past r.mw → Gives given r v

/-! ## One step -/

/-- A pending take is registered with its source at most. -/
theorem Scenario.Visits.unlisted_take (h : s.Visits c) (ha : c.world.Alive r.mw)
    (hr : c.world.TakesFrom r source p) :
    c.world.Unlisted (fun k => ∃ id, k = .take source id) r := by
  intro k hk
  obtain ⟨t, hclaims⟩ := (h.wired.fits ha).backed hk
  exact h.source_of_take ha hr hclaims

/-- Only puts on a channel, and its end, stir who takes from it. -/
theorem Instr.serves_of_stirs {i : MiddlewareId}
    (h : x.Stirs (fun k => ∃ id, k = .take (.channel d) id) i w) : x.Serves (· = d) w := by
  cases x with
  | perform j job =>
    cases job with
    | reaction => exact h.elim
    | errand e =>
      cases e with
      | put e v y =>
        obtain ⟨id, id', hid⟩ := h
        cases hid
        rfl
      | finish =>
        obtain ⟨-, id, id', hid⟩ := h
        cases hid
      | dispatch => exact h.elim
  | op site env o =>
    cases o with
    | put name e | close name =>
      obtain ⟨e, id, hn, id', hid⟩ := h
      cases hid
      exact ⟨_, hn, rfl⟩
    | finish =>
      obtain ⟨-, id, id', hid⟩ := h
      cases hid
    | resolve | reject =>
      obtain ⟨e, id, hid⟩ := h
      cases hid
    | _ => exact h.elim
  | forwarded j a sender =>
    obtain ⟨-, id, id', hid⟩ := h
    cases hid
  | abortDone | conclude | cancelOne =>
    obtain ⟨-, id, hid⟩ := h
    cases hid
  | cascade j k =>
    cases k with
    | abort => exact h.elim
    | complete =>
      obtain ⟨-, id, hid⟩ := h
      cases hid
  | moveClock =>
    obtain ⟨e, id, hid⟩ := h
    cases hid
  | _ => exact h.elim

/-- What does not serve a channel brings nothing to those who take from it. -/
theorem Scenario.Visits.brings_unserved (h : s.Visits ⟨x :: rest, w⟩)
    (hc : Config.step ⟨x :: rest, w⟩ = some c') (hs : ¬ x.Serves (· = d) w)
    (ha : c'.world.Alive r.mw) (hr : w.TakesFrom r (.channel d) p) :
    (c'.Brings r signal → Config.Brings ⟨x :: rest, w⟩ r signal) ∧
    ((∀ signal, x ≠ .perform r.mw (.reaction (.settle r.effect signal))) →
      Config.Brings ⟨x :: rest, w⟩ r signal → c'.Brings r signal) := by
  have hl := h.unlisted_take (h.alive_of_step hr.has hc ha) hr
  have hK : ¬ x.Stirs (fun k => ∃ id, k = .take (.channel d) id) r.mw w := fun hK =>
    hs (Instr.serves_of_stirs hK)
  exact ⟨h.brings_of_step hc ha hr trivial hl hK,
    fun hx => (h.brings_iff hc ha hr trivial hl hK hx).2⟩

/-- What serves a channel brings to those who take from it what they are told. -/
theorem Scenario.Visits.brings_served (h : s.Visits ⟨x :: rest, w⟩) (hx : x.Serves (· = d) w)
    {vs : List Value} {told : List (Sink × Delivery)} (hs : w.Serves d x next channel' vs told)
    (hr : w.TakesFrom r (.channel d) p) : (next.followedBy rest).Brings r signal ↔
      (∃ e, (.effect r, e) ∈ told ∧ .ofDelivery e = signal) ∨
        Config.Brings ⟨x :: rest, w⟩ r signal := by
  have hidle : ∀ signal, ¬ x.Brings r signal := by
    intro signal hb
    cases x with
    | perform j job =>
      cases job with
      | reaction => exact hx.elim
      | errand => exact hb.elim
    | op => exact hb.elim
    | _ => exact hx.elim
  have hset : ¬ x.Settles r := fun hset =>
    have ⟨signal, hb⟩ := h.brings_of_settles hr trivial List.mem_cons_self hset
    hidle signal hb
  obtain ⟨G, hG, hmute⟩ := hs.todo
  have hm : w.Mum r ⟨G, next.world⟩ :=
    ⟨hs.withholds r hset, fun y hy hyr => hset (hmute y hy r hyr)⟩
  have hrest : Config.Brings ⟨G ++ rest, next.world⟩ r signal ↔
      Config.Brings ⟨rest, w⟩ r signal := hm.brings_iff
  rw [Config.brings_cons, or_iff_right (hidle signal), ← hrest]
  simp only [Config.Brings, Config.followedBy, hG, List.append_assoc, List.mem_append,
    List.mem_map, or_and_right, exists_or, Prod.exists]
  have htold : (∃ y, (∃ a b, (a, b) ∈ told ∧ Instr.deliver a b = y) ∧ y.Brings r signal) ↔
      ∃ e, (.effect r, e) ∈ told ∧ .ofDelivery e = signal := by
    constructor
    · rintro ⟨_, ⟨sink, e, hm, rfl⟩, hb⟩
      cases sink with
      | effect target =>
        obtain ⟨rfl, he⟩ := hb
        exact ⟨e, hm, he⟩
      | script => exact hb.elim
    · rintro ⟨e, hm, he⟩
      exact ⟨_, ⟨_, e, hm, rfl⟩, rfl, he⟩
  rw [htold]
  exact or_left_comm

/-- An effect that waits has come to its end once its settlement was performed. -/
theorem Scenario.Visits.ended_of_performed {e : Effect}
    (h : s.Visits ⟨.perform r.mw (.reaction (.settle r.effect signal)) :: rest, w⟩)
    (hc : Config.step ⟨.perform r.mw (.reaction (.settle r.effect signal)) :: rest, w⟩ = some c')
    (hr : w.Issued r e) (he : e.Waits) : r.effect ∈ endedIn (c'.world.past r.mw) := by
  obtain ⟨es, hes⟩ := h.past_precedes hr.has (.step .refl hc)
  have hkeep : ∀ {ev : Event}, ev ∈ w.past r.mw → ev.ends? = some r.effect →
      r.effect ∈ endedIn (c'.world.past r.mw) := fun hm hev =>
    mem_endedIn.2 ⟨_, hes ▸ List.mem_append_right es hm, hev⟩
  have ha : w.Alive r.mw := h.alive_of_owner rfl
  rcases h.fate_of_issued ha hr he with ⟨signal', hm⟩ | hm | ⟨t, k, hclaims⟩
  · exact hkeep hm rfl
  · exact hkeep hm rfl
  · obtain ⟨link, hw⟩ := hclaims.wait
    obtain ⟨next, -, rfl, hmeets⟩ := Config.meets_of_step h.knows hr.has hc
    cases hmeets with
    | own _ hadv hdoes =>
      have hm := List.mem_append_left (w.past r.mw)
        (List.mem_reverse.2 (hdoes.settles_performed hw))
      exact mem_endedIn.2 ⟨_, hadv.past ▸ hm, rfl⟩
    | foreign ho => exact absurd rfl ho
    | drops hhead => cases hhead
    | dies hhead => cases hhead

namespace Config.Retains

/--
Whoever was given a value before a step, and is alive after it, has got it then, was withdrawn, or
it is still on its way.
-/
theorem got_step (hH : Config.Retains ⟨x :: rest, w⟩ d given) (hg : w.Custody d channel given)
    (h : s.Visits ⟨x :: rest, w⟩) (hc : Config.step ⟨x :: rest, w⟩ = some c')
    (hkeeps : ∀ {r p v}, w.TakesFrom r (.channel d) p → c'.world.Alive r.mw →
      (∀ signal, x ≠ .perform r.mw (.reaction (.settle r.effect signal))) →
      Config.Brings ⟨x :: rest, w⟩ r (.value v) → c'.Brings r (.value v))
    (hv : Gives given r v) (ha : c'.world.Alive r.mw) :
    .settled r.effect (.value v) ∈ c'.world.past r.mw ∨ .withdrawn r.effect ∈ c'.world.past r.mw ∨
      r.effect ∉ endedIn (c'.world.past r.mw) ∧ c'.Brings r (.value v) := by
  obtain ⟨a, hm, hr, hav⟩ := hv
  obtain ⟨p, htake, -⟩ := hg.takes a hm r hr
  have hi := htake.has
  have ha₀ := h.alive_of_step hi hc ha
  obtain ⟨es, hpast⟩ := h.past_precedes hi (.step .refl hc)
  rcases hH.got ⟨a, hm, hr, hav⟩ ha₀ with hs | hw | ⟨hn, hb⟩
  · exact Or.inl (hpast ▸ List.mem_append_right es hs)
  · exact Or.inr (Or.inl (hpast ▸ List.mem_append_right es hw))
  by_cases hend : r.effect ∈ endedIn (c'.world.past r.mw)
  · obtain ⟨ev, hev, he⟩ := mem_endedIn.1 hend
    have hnew : ev ∉ w.past r.mw := fun hm => hn (mem_endedIn.2 ⟨ev, hm, he⟩)
    cases ev with
    | settled y signal =>
      cases he
      -- it settles with what is performed, and nothing but its value is on its way to it
      obtain ⟨rfl, -⟩ := h.settles_take hc htake hnew hev
      have hx : Config.Brings ⟨.perform r.mw (.reaction (.settle r.effect signal)) :: rest, w⟩ r
          signal := Config.brings_cons.2 (Or.inl ⟨rfl, rfl⟩)
      rcases hH.brought htake ha₀ hx with ⟨v', rfl, hv'⟩ | ⟨-, hno⟩
      · rw [Gives.unique hg.once ⟨a, hm, hr, hav⟩ hv']
        exact Or.inl hev
      · exact absurd ⟨a, hm, hr, hav⟩ (hno v)
    | withdrawn y =>
      cases he
      exact Or.inr (Or.inl hev)
    | _ => cases he
  · refine Or.inr (Or.inr ⟨hend, hkeeps htake ha ?_ hb⟩)
    rintro signal rfl
    exact hend (h.ended_of_performed hc htake trivial)

/-- What was on its way to a take before a step is what it was given, or END. -/
theorem brought_step (hH : Config.Retains ⟨x :: rest, w⟩ d given) (h : s.Visits ⟨x :: rest, w⟩)
    (hc : Config.step ⟨x :: rest, w⟩ = some c')
    (hback : ∀ {r p signal}, w.TakesFrom r (.channel d) p → c'.world.Alive r.mw →
      c'.Brings r signal → (Config.Brings ⟨x :: rest, w⟩ r signal ∧ ∀ v, Gives given' r v → Gives given r v) ∨
        (∃ v, signal = .value v ∧ Gives given' r v) ∨ signal = .ended ∧ ∀ v, ¬ Gives given' r v)
    (hgives : ∀ {r v}, Gives given r v → Gives given' r v)
    (hr : c'.world.TakesFrom r (.channel d) p) (ha : c'.world.Alive r.mw)
    (hb : c'.Brings r signal) : (∃ v, signal = .value v ∧ Gives given' r v) ∨
      signal = .ended ∧ ∀ v, ¬ Gives given' r v := by
  by_cases hold : w.TakesFrom r (.channel d) p
  · rcases hback hold ha hb with ⟨hb, hsame⟩ | hnew
    · refine (hH.brought hold (h.alive_of_step hold.has hc ha) hb).imp ?_ ?_
      · rintro ⟨v, hv, hg⟩
        exact ⟨v, hv, hgives hg⟩
      · rintro ⟨hv, hno⟩
        exact ⟨hv, fun v hg => hno v (hsame v hg)⟩
    · exact hnew
  · exact absurd hb (h.not_brings_of_born (e := .take (.channel d) p) hc trivial hold hr)

/-- A take that got a value was given it, or it is triggered just now. -/
theorem settled_step (hH : Config.Retains ⟨x :: rest, w⟩ d given) (h : s.Visits ⟨x :: rest, w⟩)
    (hc : Config.step ⟨x :: rest, w⟩ = some c')
    (hm : .settled r.effect (.value v) ∈ c'.world.past r.mw) :
    Gives given r v ∨ ∀ p, ¬ w.TakesFrom r (.channel d) p := by
  refine or_iff_not_imp_right.2 fun hold => ?_
  obtain ⟨p, hold⟩ := not_forall_not.1 hold
  by_cases hn : .settled r.effect (.value v) ∈ w.past r.mw
  · exact hH.settled hold hn
  · obtain ⟨rfl, -⟩ := h.settles_take hc hold hn hm
    have ha : w.Alive r.mw := h.alive_of_owner rfl
    rcases hH.brought hold ha (Config.brings_cons.2 (Or.inl ⟨rfl, rfl⟩)) with ⟨v', hv, hg⟩ | ⟨hv, -⟩
    · cases hv
      exact hg
    · cases hv

/-- A take that is triggered registers with its channel, and is one that takes from it. -/
theorem takes_of_born (h : s.Visits ⟨x :: rest, w⟩) (hc : Config.step ⟨x :: rest, w⟩ = some c')
    (hr : c'.world.TakesFrom r (.channel d) p) (hold : ¬ w.TakesFrom r (.channel d) p) :
    x.Takes d w := by
  obtain ⟨⟨t, b, nests, rfl⟩, -⟩ := h.trigger_of_issued hc hold hr
  exact rfl

/-- What neither serves a channel nor takes from it lets things take their course. -/
theorem stays (hH : Config.Retains ⟨x :: rest, w⟩ d given) (hg : w.Custody d channel given)
    (h : s.Visits ⟨x :: rest, w⟩) (hc : Config.step ⟨x :: rest, w⟩ = some c')
    (hs : ¬ x.Serves (· = d) w)
    (ht : ∀ {r p}, c'.world.TakesFrom r (.channel d) p → w.TakesFrom r (.channel d) p) :
    c'.Retains d given where
  got := hH.got_step hg h hc fun hr ha => (h.brings_unserved hc hs ha hr).2
  brought := hH.brought_step h hc
    (fun htake ha hb => Or.inl ⟨(h.brings_unserved hc hs ha htake).1 hb, fun _ hv => hv⟩) fun hv => hv
  settled hr hm := (hH.settled_step h hc hm).resolve_right fun hold => hold _ (ht hr)

/-- Who is told something when a channel is served was waiting there, so nothing was on its way. -/
theorem serves (hH : Config.Retains ⟨x :: rest, w⟩ d given) (hg : w.Custody d channel given)
    (h : s.Visits ⟨x :: rest, w⟩) (hx : x.Serves (· = d) w) (hn : x.exec w = some next)
    (hd : w.channels.get? d = some channel) {vs : List Value} {told : List (Sink × Delivery)}
    (hch : channel.Serves channel' vs told) (hs : w.Serves d x next channel' vs told)
    (hgives : ∀ r v, Gives given' r v ↔ Gives given r v ∨ (.effect r, .value v) ∈ told) :
    (next.followedBy rest).Retains d given' := by
  have hc : Config.step ⟨x :: rest, w⟩ = some (next.followedBy rest) :=
    Option.map_eq_some_iff.2 ⟨next, hn, rfl⟩
  have ht : ¬ x.Takes d w := by
    intro ht
    cases x with
    | op site env o => cases o <;> first | exact hx.elim | exact ht.elim
    | perform => exact ht.elim
    | _ => exact hx.elim
  -- who is told something has a taker, and was given nothing
  have htaker : ∀ {r e}, (.effect r, e) ∈ told → ∃ b ∈ channel.takers, b.sink = .effect r ∧
      w.TakesFrom r (.channel d) b.pattern ∧ r.effect ∉ endedIn (w.past r.mw) ∧
        ∀ v, ¬ Gives given r v := by
    intro r e hm
    obtain ⟨b, hb, hbs⟩ := hch.taker hm
    obtain ⟨r', hr', htake, hno, hend⟩ := hg.waiting b hb
    obtain rfl : r' = r := by
      rw [hbs] at hr'
      exact (Sink.effect.inj hr').symm
    exact ⟨b, hb, hbs, htake, hend, fun v hv => hno hv.mem⟩
  refine ⟨fun {r v} hv ha => ?_, hH.brought_step h hc (fun {r p signal} hr ha hb => ?_)
    fun hv => (hgives _ _).2 (Or.inl hv), fun hr hm => ?_⟩
  · rcases (hgives r v).1 hv with hv | hm
    · exact hH.got_step hg h hc
        (fun hr ha _ hb => (h.brings_served hx hs hr).2 (Or.inr hb)) hv ha
    · obtain ⟨b, -, -, htake, hend, -⟩ := htaker hm
      refine Or.inr (Or.inr ⟨fun hm => hend ?_, (h.brings_served hx hs htake).2 (Or.inl ⟨_, hm, rfl⟩)⟩)
      -- nothing comes to its end as a channel is served
      obtain ⟨es, hj, hes⟩ := hs.journal
      obtain ⟨ev, hev, he⟩ := mem_endedIn.1 hm
      rw [World.mem_past] at hev
      change _ ∈ next.world.journal at hev
      rw [hj] at hev
      refine mem_endedIn.2 ⟨ev, World.mem_past.2 ?_, he⟩
      rcases List.mem_append.1 hev with hev | hev
      · rcases List.mem_append.1 hev with hev | hev
        · obtain ⟨v, -, hv⟩ := List.mem_map.1 hev
          cases hv
        · have := hes _ hev
          rw [show ev.ends? = none from this] at he
          cases he
      · exact hev
  · rcases (h.brings_served hx hs hr).1 hb with ⟨e, hm, rfl⟩ | hb
    · obtain ⟨b, hbt, hbs, -, hend, hno⟩ := htaker hm
      cases e with
      | value v => exact Or.inr (Or.inl ⟨v, rfl, (hgives _ _).2 (Or.inr hm)⟩)
      | ended =>
        refine Or.inr (Or.inr ⟨rfl, fun v hv => ?_⟩)
        rcases (hgives _ _).1 hv with hv | hv
        · exact hno v hv
        · cases hch.told_once hm hv
    · refine Or.inl ⟨hb, fun v hv => ((hgives _ _).1 hv).resolve_right fun hm => ?_⟩
      obtain ⟨b, hbt, hbs, -⟩ := htaker hm
      have ha₀ := h.alive_of_step hr.has hc ha
      exact (h.wired.fits ha₀).silent (.channel hd hbt hbs) hb.owes
  · refine (hgives _ _).2 (Or.inl ((hH.settled_step h hc hm).resolve_right ?_))
    exact fun hold => ht (takes_of_born h hc hr (hold _))

end Config.Retains

end

/-! ## A take is started -/

section

variable {s : Scenario} {c' : Config} {w : World} {d : ChannelId} {channel : Channel Sink}
  {given : List Acceptance} {rest : List Instr} {turn : Turn} {b : Body} {nests : List Nest}
  {p : Pattern}

/-- What is given away is an accepted value that nobody was given yet. -/
theorem exists_kept {pre post : List Value} {v : Value}
    (h : given.filterMap Acceptance.kept? = pre ++ v :: post) : ∃ given₁ mark given₂,
      given = given₁ ++ ⟨mark, v, none⟩ :: given₂ ∧
      given₁.filterMap Acceptance.kept? = pre ∧ given₂.filterMap Acceptance.kept? = post := by
  obtain ⟨given₁, tail, rfl, hpre, htail⟩ := List.filterMap_eq_append_iff.1 h
  obtain ⟨skip, a, given₂, rfl, hskip, ha, hpost⟩ := List.filterMap_eq_cons_iff.1 htail
  obtain ⟨mark, v', o⟩ := a
  cases o with
  | some r => cases ha
  | none =>
    cases ha
    refine ⟨given₁ ++ skip, mark, given₂, by rw [List.append_assoc], ?_, hpost⟩
    rw [List.filterMap_append, hpre, List.filterMap_eq_nil_iff.2 hskip, List.append_nil]

/-- A value that was kept is given to a take. -/
theorem Gives.give {given₁ given₂ : List Acceptance} {mark : Nat} {r r' : EffectRef} {u v : Value} :
    Gives (given₁ ++ ⟨mark, v, some r⟩ :: given₂) r' u ↔
      Gives (given₁ ++ ⟨mark, v, none⟩ :: given₂) r' u ∨ r' = r ∧ v = u := by
  simp only [Gives, List.mem_append, List.mem_cons, or_and_right, exists_or, exists_eq_left,
    Option.some.injEq, reduceCtorEq, false_and, false_or]
  rw [eq_comm (a := r) (b := r')]
  exact or_left_comm.trans or_comm

/--
A take is started on a channel: it is given the oldest value that its pattern accepts, or it is told
that the channel has ended, or it waits there.
-/
theorem World.Custody.trigger (h : w.Custody d channel given)
    (hv : s.Visits ⟨.trigger turn b nests (.take (.channel d) p) :: rest, w⟩)
    (hl : w.isHalted turn.mw turn.task = false) (hd : w.channels.get? d = some channel)
    {r : EffectRef} (hr : r = ⟨turn.mw, (w.engine turn.mw).nextEffect⟩) : ∃ given',
      (w.execTrigger turn b nests (.take (.channel d) p)).world.Custody d
        (channel.take p (.effect r)).channel given' ∧
      ∀ r' v, Gives given' r' v ↔ Gives given r' v ∨
        r' = r ∧ (channel.take p (.effect r)).delivery = some (.value v) := by
  obtain ⟨hd', u, q, notes, hj⟩ := World.execTrigger_take (b := b) (p := p) hl hd hr
  have hc : Config.step ⟨.trigger turn b nests (.take (.channel d) p) :: rest, w⟩ =
      some ((w.execTrigger turn b nests (.take (.channel d) p)).followedBy rest) := rfl
  have hi : w.Has turn.mw := (hv.alive_of_owner rfl).has
  have hnew : r.effect ∉ triggeredIn (w.past r.mw) := hr ▸ hv.unknown rfl
  have hend : r.effect ∉ endedIn (w.past r.mw) := fun hm =>
    hnew ((hv.kept (hr ▸ hi)).regular.triggered_of_ended hm)
  have hgiven : r ∉ given.filterMap Acceptance.taker := by
    intro hm
    obtain ⟨a, ha, hra⟩ := List.mem_filterMap.1 hm
    obtain ⟨p', ⟨-, t, q', ht⟩, -⟩ := h.takes a ha r hra
    exact hnew (mem_triggeredIn.2 ⟨t, q', _, ht⟩)
  generalize hw' : (w.execTrigger turn b nests (.take (.channel d) p)).world = w' at hd' hj
  generalize hnewer : ((channel.take p (.effect r)).delivery.map fun e =>
      Entry.event r.mw (.settled r.effect (.ofDelivery e))).toList ++
        (notes : List Note).map .note = newer at hj
  have hj' : w'.journal = (newer ++ [.event r.mw (.triggered u r.effect q
      (.take (.channel d) p))]) ++ w.journal := by
    rw [hj, List.append_assoc]
    rfl
  have htake : w'.TakesFrom r (.channel d) p := by
    refine ⟨?_, u, q, World.mem_past.2 (hj ▸ List.mem_append_right _ List.mem_cons_self)⟩
    rw [hr, ← hw']
    exact (hv.knows.has_iff hc turn.mw).2 hi
  have haccepted : given.map (fun a => (a.mark, a.value)) = acceptedOn d w'.journal := by
    rw [h.accepted, hj', acceptedOn_append]
    intro v hm
    rw [← hnewer] at hm
    cases hdel : (channel.take p (.effect r)).delivery <;> simp [hdel] at hm
  have hold := hw' ▸ h.takes_step hv hc
  have hlate := h.late_append hj'
  have hwait : ∀ channel' : Channel Sink, w'.channels.get? d = some channel' →
      ∀ t ∈ channel.takers, t ∈ channel'.takers → ∃ r', t.sink = .effect r' ∧
        w'.TakesFrom r' (.channel d) t.pattern ∧ r' ∉ given.filterMap Acceptance.taker ∧
          r'.effect ∉ endedIn (w'.past r'.mw) := fun channel' hget t ht ht' =>
    hw' ▸ h.waiting_step hv hc (hw'.symm ▸ hget) ht ht'
  have hother : ∀ {r' p'}, w.TakesFrom r' (.channel d) p' → r' ≠ r := by
    rintro r' p' ⟨-, t, q', ht⟩ rfl
    exact hnew (mem_triggeredIn.2 ⟨t, q', _, ht⟩)
  rcases channel.take_meets p (.effect r) with
    ⟨pre, v, post, hitems, hacc, -, ht⟩ | ⟨-, ⟨-, ht⟩ | ⟨-, ht⟩⟩
  · -- the oldest value that the pattern accepts is given away
    obtain ⟨given₁, mark, given₂, rfl, hpre, hpost⟩ := exists_kept (h.stored.trans hitems)
    have hmem : ∀ a ∈ given₁ ++ ⟨mark, v, some r⟩ :: given₂, a = ⟨mark, v, some r⟩ ∨
        a ∈ given₁ ++ ⟨mark, v, none⟩ :: given₂ := by
      intro a ha
      simp only [List.mem_append, List.mem_cons] at ha ⊢
      tauto
    have hgives : ∀ r' u, Gives (given₁ ++ ⟨mark, v, some r⟩ :: given₂) r' u ↔ _ :=
      fun _ _ => Gives.give
    rw [ht] at hd' ⊢
    refine ⟨given₁ ++ ⟨mark, v, some r⟩ :: given₂, ?_, fun r' u => ?_⟩
    · have hnot : ∀ {r' : EffectRef},
          r' ∉ (given₁ ++ ⟨mark, v, none⟩ :: given₂).filterMap Acceptance.taker → r' ≠ r →
          r' ∉ (given₁ ++ ⟨mark, v, some r⟩ :: given₂).filterMap Acceptance.taker := by
        intro r' hno hne hm
        obtain ⟨u, hu⟩ := mem_takers_iff.1 hm
        rcases (hgives r' u).1 hu with hu | ⟨he, -⟩
        · exact hno hu.mem
        · exact hne he
      have honce := h.once
      rw [List.filterMap_append, List.filterMap_cons_none rfl] at honce hgiven
      exact {
        accepted := by
          rw [← haccepted, List.map_append, List.map_append, List.map_cons, List.map_cons]
        stored := by
          rw [List.filterMap_append, List.filterMap_cons_none rfl, hpre, hpost]
        once := by
          have hcons : List.filterMap Acceptance.taker (⟨mark, v, some r⟩ :: given₂) =
              r :: given₂.filterMap Acceptance.taker := rfl
          rw [List.filterMap_append, hcons]
          exact List.nodup_middle.2 (List.nodup_cons.2 ⟨hgiven, honce⟩)
        takes := by
          intro a ha r' hr'
          rcases hmem a ha with rfl | ha
          · cases hr'
            exact ⟨p, htake, hacc⟩
          · exact hold a ha r' hr'
        late := by
          intro a ha r' hr' hm
          rcases hmem a ha with rfl | ha
          · -- what is triggered here was not withdrawn before, and is not now
            cases hr'
            refine absurd hm fun hm => hend (mem_endedIn.2 ⟨.withdrawn r.effect, ?_, rfl⟩)
            rw [World.mem_past, hj', ← hnewer] at hm
            refine World.mem_past.2 ?_
            simpa [ht] using hm
          · exact hlate a ha r' hr' hm
        waiting := by
          intro t hmt
          obtain ⟨r', hs, h₁, h₂, h₃⟩ := hwait _ hd' t hmt hmt
          obtain ⟨r'', hs', h₁', -⟩ := h.waiting t hmt
          rw [hs] at hs'
          cases hs'
          exact ⟨r', hs, h₁, hnot h₂ (hother h₁'), h₃⟩
        distinct := h.distinct }
    · rw [hgives]
      simp
  · -- the channel has ended
    rw [ht] at hd' ⊢
    exact ⟨given, {
      accepted := haccepted
      stored := h.stored
      once := h.once
      takes := hold
      late := hlate
      waiting := fun t hmt => hwait _ hd' t hmt hmt
      distinct := h.distinct }, by simp⟩
  · -- the take waits behind the others
    rw [ht] at hd' ⊢
    refine ⟨given, {
      accepted := haccepted
      stored := h.stored
      once := h.once
      takes := hold
      late := hlate
      waiting := fun t hmt => ?_
      distinct := ?_ }, by simp⟩
    · rcases List.mem_append.1 hmt with hmt' | hmt'
      · exact hwait _ hd' t hmt' hmt
      · rw [List.mem_singleton.1 hmt']
        refine ⟨r, rfl, htake, hgiven, fun hm => hend ?_⟩
        obtain ⟨ev, hev, he⟩ := mem_endedIn.1 hm
        refine mem_endedIn.2 ⟨ev, ?_, he⟩
        rw [World.mem_past, hj', ← hnewer] at hev
        refine World.mem_past.2 ?_
        simp only [ht, Option.map_none, Option.toList_none, List.nil_append, List.append_assoc,
          List.mem_append, List.mem_map, List.mem_singleton, reduceCtorEq, and_false, exists_false,
          false_or, Entry.event.injEq] at hev
        rcases hev with ⟨-, rfl⟩ | hev
        · cases he
        · exact hev
    · rw [List.map_append]
      refine h.distinct.append (List.nodup_singleton _) fun k hk hk' => ?_
      obtain ⟨t, hmt, rfl⟩ := List.mem_map.1 hk
      obtain ⟨r', hs, h₁, -⟩ := h.waiting t hmt
      have hk' : t.sink = .effect r := List.mem_singleton.1 hk'
      rw [hs] at hk'
      exact hother h₁ (Sink.effect.inj hk')

/-- A take is started on a channel: if it is given a value, it gets it right away. -/
theorem Config.Retains.trigger {given' : List Acceptance} {r : EffectRef}
    (hH : Config.Retains ⟨.trigger turn b nests (.take (.channel d) p) :: rest, w⟩ d given)
    (hg : w.Custody d channel given)
    (h : s.Visits ⟨.trigger turn b nests (.take (.channel d) p) :: rest, w⟩)
    (hl : w.isHalted turn.mw turn.task = false) (hd : w.channels.get? d = some channel)
    (hr : r = ⟨turn.mw, (w.engine turn.mw).nextEffect⟩)
    (hgives : ∀ r' v, Gives given' r' v ↔ Gives given r' v ∨
      r' = r ∧ (channel.take p (.effect r)).delivery = some (.value v)) :
    ((w.execTrigger turn b nests (.take (.channel d) p)).followedBy rest).Retains d given' := by
  obtain ⟨-, u, q, notes, hj⟩ := World.execTrigger_take (b := b) (p := p) hl hd hr
  have hc : Config.step ⟨.trigger turn b nests (.take (.channel d) p) :: rest, w⟩ =
      some ((w.execTrigger turn b nests (.take (.channel d) p)).followedBy rest) := rfl
  have hnew : r.effect ∉ triggeredIn (w.past r.mw) := hr ▸ h.unknown rfl
  have hserves : ¬ (Instr.trigger turn b nests (.take (.channel d) p)).Serves (· = d) w := id
  have hother : ∀ {r' p'}, w.TakesFrom r' (.channel d) p' → r' ≠ r := by
    rintro r' p' ⟨-, t, q', ht⟩ rfl
    exact hnew (mem_triggeredIn.2 ⟨t, q', _, ht⟩)
  refine ⟨fun {r' v} hv ha => ?_, hH.brought_step h hc (fun {r' p' signal} htake ha hb => ?_)
    fun hv => (hgives _ _).2 (Or.inl hv), fun {r' p' v} htake hm => ?_⟩
  · rcases (hgives r' v).1 hv with hv | ⟨rfl, hdel⟩
    · exact hH.got_step hg h hc (fun htake ha => (h.brings_unserved hc hserves ha htake).2) hv ha
    · refine Or.inl (World.mem_past.2 ?_)
      change _ ∈ (w.execTrigger turn b nests (.take (.channel d) p)).world.journal
      rw [hj, hdel]
      exact List.mem_cons_self
  · refine Or.inl ⟨(h.brings_unserved hc hserves ha htake).1 hb, fun v hv => ?_⟩
    exact ((hgives _ _).1 hv).resolve_right fun hm => hother htake hm.1
  · refine (hgives _ _).2 ((hH.settled_step h hc hm).imp_right fun hold => ?_)
    obtain ⟨⟨t, b', nests', hx⟩, heffect⟩ := h.trigger_of_issued hc (hold p') htake
    obtain ⟨rfl, -, -, -⟩ := Instr.trigger.inj hx
    obtain rfl : r' = r := by
      rw [hr]
      exact congrArg (EffectRef.mk r'.mw) heffect
    refine ⟨rfl, ?_⟩
    rw [World.mem_past] at hm
    change _ ∈ (w.execTrigger _ b nests (.take (.channel d) p)).world.journal at hm
    rw [hj] at hm
    have hold' : Entry.event r'.mw (.settled r'.effect (.value v)) ∉ w.journal := fun hm =>
      hnew ((h.kept (h.alive_of_owner rfl).has).regular.triggered_of_ended
        (mem_endedIn.2 ⟨_, World.mem_past.2 hm, rfl⟩))
    rcases List.mem_append.1 hm with hm | hm
    · rcases List.mem_append.1 hm with hm | hm
      · obtain ⟨e, he, hev⟩ := Option.map_eq_some_iff.1 (Option.mem_toList.1 hm)
        cases e with
        | value v' =>
          cases hev
          exact he
        | ended => cases hev
      · obtain ⟨n, -, hev⟩ := List.mem_map.1 hm
        cases hev
    · exact absurd ((List.mem_cons.1 hm).resolve_left nofun) hold'

/-- A take is started, or the task was cancelled meanwhile and nothing happens. -/
theorem Config.Retains.started
    (hH : Config.Retains ⟨.trigger turn b nests (.take (.channel d) p) :: rest, w⟩ d given)
    (hg : w.Custody d channel given)
    (h : s.Visits ⟨.trigger turn b nests (.take (.channel d) p) :: rest, w⟩)
    (hd : w.channels.get? d = some channel) (hu : channel.buffer.capacity = .unbounded) :
    ∃ channel' given', (w.execTrigger turn b nests (.take (.channel d) p)).world.channels.get? d =
        some channel' ∧ channel'.buffer.capacity = .unbounded ∧
      (w.execTrigger turn b nests (.take (.channel d) p)).world.Custody d channel' given' ∧
      ((w.execTrigger turn b nests (.take (.channel d) p)).followedBy rest).Retains d given' := by
  cases hl : w.isHalted turn.mw turn.task with
  | true =>
    have hw : (w.execTrigger turn b nests (.take (.channel d) p)).world = w := by
      rw [World.execTrigger, if_pos hl]
    refine ⟨channel, given, by rw [hw, hd], hu, by rwa [hw], ?_⟩
    refine hH.stays hg h rfl id fun {r p'} htake => ?_
    have hw : ((w.execTrigger turn b nests (.take (.channel d) p)).followedBy rest).world = w := hw
    rwa [hw] at htake
  | false =>
    obtain ⟨given', hg', hgives⟩ := hg.trigger h hl hd rfl
    obtain ⟨hd', -⟩ := World.execTrigger_take (b := b) (p := p) hl hd rfl
    refine ⟨_, given', hd', ?_, hg', hH.trigger hg h hl hd rfl hgives⟩
    rcases channel.take_meets p (.effect ⟨turn.mw, (w.engine turn.mw).nextEffect⟩) with
      ⟨pre, v, post, -, -, -, ht⟩ | ⟨-, ⟨-, ht⟩ | ⟨-, ht⟩⟩
    all_goals
      rw [ht]
      exact hu

end

/-! ## Runs -/

section

variable {s : Scenario} {c : Config} {w : World} {d : ChannelId} {channel : Channel Sink}

/-- Where a run comes to, a channel that only sagas take from has its values where the list says. -/
theorem Scenario.Reserves.holds (h : s.Reserves d c) : ∃ channel given,
    c.world.channels.get? d = some channel ∧ channel.buffer.capacity = .unbounded ∧
      c.world.Custody d channel given ∧ c.Retains d given := by
  induction h with
  | @start w h hd =>
    have hj : w.journal = [] := (setUp_fresh h).journal
    have hnone : ∀ {r p}, ¬ w.TakesFrom r (.channel d) p := by
      rintro r p ⟨-, t, q, hm⟩
      rw [World.mem_past, hj] at hm
      cases hm
    refine ⟨_, [], hd, rfl, ?_, ?_⟩
    · exact {
        accepted := by
          rw [hj]
          rfl
        stored := rfl
        once := .nil
        takes := nofun
        late := nofun
        waiting := nofun
        distinct := .nil }
    · exact {
        got := fun ⟨_, ha, _⟩ => by cases ha
        brought := fun hr => absurd hr hnone
        settled := fun hr => absurd hr hnone }
  | @call w h o budget ih =>
    obtain ⟨channel, given, hd, hu, hg, hH⟩ := ih
    have hbrings : ∀ {r signal}, Config.Brings ⟨[.op .outside .empty o],
        { w with reply := none, budget }⟩ r signal ↔ Config.Brings ⟨[], w⟩ r signal := by
      intro r signal
      rw [Config.brings_cons]
      exact or_iff_right id
    have hissued : ∀ {r p}, World.TakesFrom { w with reply := none, budget } r (.channel d) p ↔
        w.TakesFrom r (.channel d) p :=
      ⟨fun h => ⟨h.has, h.triggered⟩, fun h => ⟨h.has, h.triggered⟩⟩
    refine ⟨channel, given, hd, hu, ?_, ?_⟩
    · refine ⟨hg.accepted, hg.stored, hg.once, fun a ha r hr => ?_, hg.late, fun b hb => ?_,
        hg.distinct⟩
      · obtain ⟨p, hp, hacc⟩ := hg.takes a ha r hr
        exact ⟨p, hissued.2 hp, hacc⟩
      · obtain ⟨r, hs, hp, hrest⟩ := hg.waiting b hb
        exact ⟨r, hs, hissued.2 hp, hrest⟩
    · refine ⟨fun hv ha => ?_, fun hr ha hb => hH.brought (hissued.1 hr) ha (hbrings.1 hb),
        fun hr hm => hH.settled (hissued.1 hr) hm⟩
      exact (hH.got hv ha).imp_right fun hl => hl.imp_right fun ⟨hn, hb⟩ => ⟨hn, hbrings.2 hb⟩
  | @step x rest w c' h hx hc ih =>
    obtain ⟨channel, given, hd, hu, hg, hH⟩ := ih
    have hv := h.visits
    obtain ⟨next, hn, rfl⟩ := Option.map_eq_some_iff.1 hc
    by_cases hs : x.Serves (· = d) w
    · obtain ⟨channel', vs, told, hch, hserves⟩ := Instr.serves hs hn hd hu
      obtain ⟨given', hg', hgives⟩ := hg.serves hv hn hch hserves
      exact ⟨channel', given', hserves.channel, hch.buffer.trans hu, hg',
        hH.serves hg hv hs hn hd hch hserves hgives⟩
    by_cases ht : x.Takes d w
    · cases x with
      | trigger turn b nests e =>
        cases e with
        | take source p =>
          cases source with
          | bus => exact ht.elim
          | channel d' =>
            obtain rfl : d' = d := ht
            cases hn
            exact Config.Retains.started hH hg hv hd hu
        | _ => exact ht.elim
      | op site env o =>
        cases o with
        | take name p tag next =>
          have ht : w.channelNames.get? name = some d := ht
          rw [Instr.takesByHand, ht, BEq.rfl] at hx
          cases hx
        | _ => exact ht.elim
      | _ => exact ht.elim
    · have hst : w.Stays d next.world := Instr.stays hs ht hn
      obtain ⟨channel', hd', hb, hg'⟩ := hg.stays hv hc hst hd
      refine ⟨channel', given, hd', hb ▸ hu, hg', hH.stays hg hv hc hs fun {r p} htake => ?_⟩
      by_contra hold
      exact ht (Config.Retains.takes_of_born hv hc htake hold)

/--
Every value that a channel with unlimited room accepted, and that only sagas take from, is in one
place: it is buffered, in the order in which the values were accepted, or it was given to one take
that accepts it. This take has settled with the value, unless it was withdrawn after the channel had
accepted the value, and before it could settle, or its middleware was dropped. No take settles with
anything else that came from the channel, so one that was withdrawn before leaves the values to others.
-/
theorem Scenario.Reserves.values_kept (h : s.Reserves d ⟨[], w⟩) : ∃ channel given,
    w.channels.get? d = some channel ∧
    given.map (fun a => (a.mark, a.value)) = acceptedOn d w.journal ∧
    given.filterMap Acceptance.kept? = channel.buffer.items ∧
    (given.filterMap Acceptance.taker).Nodup ∧
    (∀ a ∈ given, ∀ r, a.taker = some r →
      (∃ p, w.TakesFrom r (.channel d) p ∧ p.accepts a.value = true) ∧
      (.settled r.effect (.value a.value) ∈ w.past r.mw ∨
        .event r.mw (.withdrawn r.effect) ∈ w.since a.mark ∨ ¬ w.Alive r.mw)) ∧
    ∀ r p v, w.TakesFrom r (.channel d) p → .settled r.effect (.value v) ∈ w.past r.mw →
      Gives given r v := by
  obtain ⟨channel, given, hd, -, hg, hH⟩ := h.holds
  refine ⟨channel, given, hd, hg.accepted, hg.stored, hg.once, fun a ha r hr => ?_,
    fun r p v => hH.settled⟩
  obtain ⟨p, htake, hacc⟩ := hg.takes a ha r hr
  refine ⟨⟨p, htake, hacc⟩, ?_⟩
  by_cases halive : w.Alive r.mw
  · rcases hH.got ⟨a, ha, hr, rfl⟩ halive with hs | hw | ⟨-, hb⟩
    · exact Or.inl hs
    · exact Or.inr (Or.inl (hg.late a ha r hr hw))
    · -- nothing is on its way any more
      exact absurd hb.owes (h.visits.owes_nil htake.has)
  · exact Or.inr (Or.inr halive)

theorem Scenario.Reserves.run {n : Nat} (h : s.Reserves d c)
    (hn : ∀ m < n, ((c.run m).todo.head?.all fun x => !x.takesByHand d (c.run m).world) = true) :
    s.Reserves d (c.run n) := by
  induction n generalizing c with
  | zero => exact h
  | succ n ih =>
    unfold Config.run
    split
    · exact h
    · rename_i c' hc
      have hrun : ∀ m, c.run (m + 1) = c'.run m := fun m => by
        rw [Config.run]
        simp only [hc]
      refine ih ?_ fun m hm => ?_
      · obtain ⟨todo, w⟩ := c
        cases todo with
        | nil => cases hc
        | cons x rest =>
          refine h.step ?_ hc
          have hx := hn 0 n.succ_pos
          simp only [Config.run, List.head?_cons, Option.all_some, Bool.not_eq_true'] at hx
          exact hx
      · rw [← hrun]
        exact hn (m + 1) (Nat.succ_lt_succ hm)

end

/-- A take is given the first of two values. -/
def Scenario.putsTwice : Scenario where
  channels := [("inbox", .buffered .unbounded)]
  scripts := [
    ("taker", [.perform (.take (some "inbox") .any) none none]),
    ("main", [.perform (.fork { source := .named "taker" }) none none,
      .ops [.put "inbox" (.json (.num (.int 1))), .put "inbox" (.json (.num (.int 2)))]])]

/-- Only sagas take from the first channel, in so many steps. -/
def Config.sparesFirst (n : Nat) (c : Config) : Bool :=
  (List.range n).all fun m => (c.run m).todo.head?.all fun x => !x.takesByHand 0 (c.run m).world

theorem Scenario.values_kept_putsTwice : ∃ (w : World) (channel : Channel Sink)
    (given : List Acceptance), putsTwice.Reserves 0 ⟨[], w⟩ ∧
    w.channels.get? 0 = some channel ∧ channel.buffer.items.length = 1 ∧ given.length = 2 ∧
    ∀ a ∈ given, ∀ r, a.taker = some r →
      .settled r.effect (.value a.value) ∈ w.past r.mw ∨
        .event r.mw (.withdrawn r.effect) ∈ w.since a.mark ∨ ¬ w.Alive r.mw := by
  let first : World → Config := fun w₀ =>
    ⟨[.op .outside .empty (.run 0 { source := .named "main" } none)],
      { w₀ with reply := none, budget := w₀.budget }⟩
  have h : (putsTwice.setUp.toOption.any fun w₀ => (first w₀).sparesFirst 60 &&
      ((first w₀).run 60).todo.isEmpty && decide (
        (((first w₀).run 60).world.channels.get? 0).map (·.buffer.items.length) = some 1 ∧
        (acceptedOn 0 ((first w₀).run 60).world.journal).length = 2)) = true := by
    decide +kernel
  obtain ⟨w₀, hw₀, h⟩ := (Option.any_eq_true ..).1 h
  simp only [Bool.and_eq_true, decide_eq_true_eq, List.isEmpty_iff] at h
  obtain ⟨⟨hspares, hdone⟩, hitems, haccepted⟩ := h
  have hsetUp : putsTwice.setUp = .ok w₀ := by
    cases he : putsTwice.setUp with
    | error f =>
      rw [he] at hw₀
      cases hw₀
    | ok w =>
      rw [he] at hw₀
      cases hw₀
      rfl
  have hchannel : w₀.channels.get? 0 = some { buffer := .unbounded } := by
    cases hsetUp
    rfl
  have hr : putsTwice.Reserves 0 ((first w₀).run 60) :=
    ((Reserves.start hsetUp hchannel).call _ w₀.budget).run fun m hm =>
      List.all_eq_true.1 hspares m (List.mem_range.2 hm)
  have hrest : (first w₀).run 60 = ⟨[], ((first w₀).run 60).world⟩ := by
    rw [← hdone]
  rw [hrest] at hr
  obtain ⟨channel, given, hd, hlist, -, -, hgiven, -⟩ := hr.values_kept
  rw [hd] at hitems
  refine ⟨_, channel, given, hr, hd, Option.some.inj hitems, ?_, fun a ha r har => ?_⟩
  · rw [← haccepted, ← hlist, List.length_map]
  · exact (hgiven a ha r har).2

end SagaMachine
