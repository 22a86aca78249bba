import SagaMachine.Proofs.ChannelSteps
import SagaMachine.Proofs.Fates
import SagaMachine.Proofs.Stays

/-!
# Who has the values of a channel

A channel accepts a value as it is put, and from then on the value is buffered, or one take was
given it: right away, or by a taker that came later. The list of `Acceptance`s follows the journal
and says of each value which of the two it is (`World.Custody`).

Main statements: `Instr.serves`, `World.Custody.serves`, `World.Custody.stays`.
-/

namespace SagaMachine

/-! ## Accepted values -/

/--
A value that a channel accepted, and the take that was given it, if one was. `mark` is the length
of the journal as the value was accepted.
-/
structure Acceptance where
  mark : Nat
  value : Value
  taker : Option EffectRef

/-- The value, as long as nobody was given it. -/
def Acceptance.kept? (a : Acceptance) : Option Value :=
  match a.taker with
  | none => some a.value
  | some _ => none

/-- A take was given a value. -/
def Gives (given : List Acceptance) (r : EffectRef) (v : Value) : Prop :=
  ∃ a ∈ given, a.taker = some r ∧ a.value = v

/-- The values that a channel accepted, the first one first, with the length of the journal then. -/
def acceptedOn (c : ChannelId) : List Entry → List (Nat × Value)
  | [] => []
  | .accepted d v :: es =>
    if d = c then acceptedOn c es ++ [(es.length + 1, v)] else acceptedOn c es
  | _ :: es => acceptedOn c es

/-- What was entered in the journal since it had a certain length, the latest first. -/
def World.since (w : World) (mark : Nat) : List Entry :=
  w.journal.take (w.journal.length - mark)

section

variable {c : ChannelId} {w w' : World} {es js : List Entry} {e : Entry} {mark : Nat} {r : EffectRef}
  {v : Value} {given : List Acceptance} {a : Acceptance}

theorem acceptedOn_append (h : ∀ v, .accepted c v ∉ es) :
    acceptedOn c (es ++ js) = acceptedOn c js := by
  induction es with
  | nil => rfl
  | cons e es ih =>
    have ih := ih fun v hm => h v (List.mem_cons_of_mem _ hm)
    cases e with
    | accepted d v =>
      have hd : d ≠ c := by
        rintro rfl
        exact h v List.mem_cons_self
      simpa [acceptedOn, hd] using ih
    | _ => exact ih

theorem mark_le_of_mem_acceptedOn (h : (mark, v) ∈ acceptedOn c js) : mark ≤ js.length := by
  induction js with
  | nil => cases h
  | cons e es ih =>
    cases e with
    | accepted d u =>
      unfold acceptedOn at h
      split at h
      · rcases List.mem_append.1 h with h | h
        · exact Nat.le_succ_of_le (ih h)
        · cases List.mem_singleton.1 h
          exact Nat.le_refl _
      · exact Nat.le_succ_of_le (ih h)
    | _ => exact Nat.le_succ_of_le (ih h)

theorem World.since_append (h : w'.journal = es ++ w.journal) (hm : mark ≤ w.journal.length) :
    w'.since mark = es ++ w.since mark := by
  simp only [since, h, List.length_append, Nat.add_sub_assoc hm, List.take_length_add_append]

theorem Gives.append (b : Acceptance) :
    Gives (given ++ [b]) r v ↔ Gives given r v ∨ b.taker = some r ∧ b.value = v := by
  simp [Gives, or_and_right, exists_or]

theorem Gives.mem (h : Gives given r v) : r ∈ given.filterMap Acceptance.taker := by
  obtain ⟨a, ha, ht, -⟩ := h
  exact List.mem_filterMap.2 ⟨a, ha, ht⟩

end

/-! ## Serving a channel -/

/--
What becomes of a channel with unlimited room that is served: the values that it accepts, and what
it tells its takers.
-/
inductive Channel.Serves {κ : Type} (c : Channel κ) :
    Channel κ → List Value → List (κ × Delivery) → Prop
  | idle : c.Serves c [] []
  | stores (v : Value) :
      c.Serves { c with buffer := { c.buffer with items := c.buffer.items ++ [v] } } [v] []
  | hands {pre post : List (Taker κ)} {t : Taker κ} {v : Value} (takers : c.takers = pre ++ t :: post)
      (accepts : t.pattern.accepts v = true) :
      c.Serves { c with takers := pre ++ post } [v] [(t.sink, .value v)]
  | closes : c.Serves { c with takers := [], closed := true } []
      (c.takers.map fun t => (t.sink, .ended))

theorem Channel.Serves.taker {κ : Type} {c c' : Channel κ} {vs : List Value}
    {told : List (κ × Delivery)} (h : c.Serves c' vs told) {k : κ} {e : Delivery}
    (hk : (k, e) ∈ told) : ∃ t ∈ c.takers, t.sink = k := by
  cases h with
  | idle | stores => cases hk
  | hands ht =>
    cases List.mem_singleton.1 hk
    exact ⟨_, ht ▸ List.mem_append_right _ List.mem_cons_self, rfl⟩
  | closes =>
    obtain ⟨t, ht, he⟩ := List.mem_map.1 hk
    cases he
    exact ⟨t, ht, rfl⟩

/-- Nobody is told two things. -/
theorem Channel.Serves.told_once {κ : Type} {c c' : Channel κ} {vs : List Value}
    {told : List (κ × Delivery)} (h : c.Serves c' vs told) {k : κ} {e e' : Delivery}
    (hk : (k, e) ∈ told) (hk' : (k, e') ∈ told) : e = e' := by
  cases h with
  | idle | stores => cases hk
  | hands =>
    cases List.mem_singleton.1 hk
    cases List.mem_singleton.1 hk'
    rfl
  | closes =>
    obtain ⟨t, -, he⟩ := List.mem_map.1 hk
    obtain ⟨t', -, he'⟩ := List.mem_map.1 hk'
    exact (Prod.mk.inj he).2.symm.trans (Prod.mk.inj he').2

theorem Channel.Serves.buffer {κ : Type} {c c' : Channel κ} {vs : List Value}
    {told : List (κ × Delivery)} (h : c.Serves c' vs told) :
    c'.buffer.capacity = c.buffer.capacity := by
  cases h <;> rfl

/-- What a put tells. -/
def PutResult.told {κ : Type} (v : Value) : PutResult κ → List (κ × Delivery)
  | .delivered t => [(t.sink, .value v)]
  | _ => []

theorem Channel.serves_put {κ : Type} {c : Channel κ} (hu : c.buffer.capacity = .unbounded)
    (v : Value) : ∃ vs, c.Serves (c.put v).2 vs ((c.put v).1.told v) ∧
      (vs = [] ∧ (c.put v).1 = .ignored ∨
        vs = [v] ∧ ((c.put v).1 = .buffered (.ok ()) ∨ ∃ t, (c.put v).1 = .delivered t)) := by
  rcases c.put_cases v with ⟨-, hp⟩ | ⟨-, pre, t, post, ht, ha, -, hp⟩ | ⟨-, -, hp⟩
  · rw [hp]
    exact ⟨[], .idle, Or.inl ⟨rfl, rfl⟩⟩
  · rw [hp]
    exact ⟨[v], .hands ht ha, Or.inr ⟨rfl, Or.inr ⟨t, rfl⟩⟩⟩
  · have hs : c.buffer.admission = .stores := by simp [Buffer.admission, hu]
    rw [hs] at hp
    rw [hp]
    exact ⟨[v], .stores v, Or.inr ⟨rfl, Or.inl rfl⟩⟩

/-- A line of the journal that is neither an accepted value nor the end of an effect. -/
def Entry.IsAside : Entry → Prop
  | .note _ => True
  | .event _ e => e.ends? = none
  | _ => False

/--
An instruction serves a channel: the channel tells its takers, and whatever else is left to be done
settles nothing but what the instruction was to settle.
-/
structure World.Serves (w : World) (c : ChannelId) (x : Instr) (next : Config)
    (channel : Channel Sink) (vs : List Value) (told : List (Sink × Delivery)) : Prop where
  channel : next.world.channels.get? c = some channel
  journal : ∃ es, next.world.journal = vs.map (.accepted c) ++ es ++ w.journal ∧
    ∀ e ∈ es, e.IsAside
  todo : ∃ G, next.todo = told.map (fun d => .deliver d.1 d.2) ++ G ∧
    ∀ y ∈ G, ∀ r, y.Settles r → x.Settles r
  withholds : ∀ r, ¬ x.Settles r → w.Withholds r next.world

namespace World

variable {c : ChannelId} {w w' : World} {channel : Channel Sink} {x : Instr} {i : MiddlewareId}

theorem journal_enterNotes (w : World) (notes : List Note) :
    (w.enterNotes notes).journal = (notes.map Entry.note).reverse ++ w.journal := by
  unfold enterNotes
  induction notes generalizing w with
  | nil => rfl
  | cons n notes ih =>
    rw [List.foldl_cons, ih, List.map_cons, List.reverse_cons, List.append_assoc]
    rfl

/-- A value is put on a channel with unlimited room. -/
theorem serves_putChannel (hu : channel.buffer.capacity = .unbounded) (v : Value) : ∃ channel' vs,
      channel.Serves channel' vs ((w.putChannel c channel v).1.told v) ∧
      (w.putChannel c channel v).2.channels.get? c = some channel' ∧
      ∃ es, (w.putChannel c channel v).2.journal = vs.map (.accepted c) ++ es ++ w.journal ∧
        ∀ e ∈ es, e.IsAside := by
  obtain ⟨vs, hs, hv⟩ := channel.serves_put hu v
  refine ⟨(channel.put v).2, vs, by rwa [Config.Wired.putChannel_fst], ?_,
    ((channel.putNotes v).map Entry.note).reverse, ?_, ?_⟩
  · rcases Config.Wired.putChannel_snd (w := w) (c := c) (v := v) with he | he
    all_goals
      rw [he]
      simp [World.enter]
  · rcases hv with ⟨rfl, hp⟩ | ⟨rfl, hp | ⟨t, hp⟩⟩
    all_goals simp [putChannel, hp, World.enter, journal_enterNotes]
  · intro e he
    obtain ⟨n, -, rfl⟩ := List.mem_map.1 (List.mem_reverse.1 he)
    exact trivial

/-- An effect puts a value on a channel. -/
theorem serves_putForEffect (hc : w.channels.get? c = some channel)
    (hu : channel.buffer.capacity = .unbounded) (v : Value) (y : EffectId)
    (hx : ∀ r, x.Settles r ↔ r = ⟨i, y⟩) : ∃ channel' vs told,
      channel.Serves channel' vs told ∧ w.Serves c x (w.putForEffect i c v y) channel' vs told := by
  obtain ⟨channel', vs, hs, hget, hj⟩ := serves_putChannel (w := w) (c := c) hu v
  have hw : ∀ r, w.Withholds r (w.putChannel c channel v).2 := fun r =>
    (Withholds.refl r w).untouched (untouched_putChannel c channel v)
  have hreply : ∀ {r signal}, ¬ x.Settles r → ¬ (Instr.schedule i (.settle y signal)).Settles r :=
    fun hr hs => hr ((hx _).2 hs)
  simp only [putForEffect, hc]
  cases hp : (w.putChannel c channel v).1 with
  | ignored =>
    rw [hp] at hs
    exact ⟨channel', vs, [], hs, hget, hj, ⟨[], rfl, fun _ h => absurd h List.not_mem_nil⟩,
      fun r hr => (hw r).schedule (hreply hr)⟩
  | buffered result =>
    rw [hp] at hs
    exact ⟨channel', vs, [], hs, hget, hj, ⟨[], rfl, fun _ h => absurd h List.not_mem_nil⟩,
      fun r hr => (hw r).schedule (hreply hr)⟩
  | delivered t =>
    rw [hp] at hs
    refine ⟨channel', vs, _, hs, hget, hj, ⟨[_], rfl, fun z hz r hr => ?_⟩, fun r _ => hw r⟩
    rw [List.mem_singleton.1 hz] at hr
    exact (hx r).2 hr

/-- User code puts a value on a channel. -/
theorem serves_opPut (site : Site) (hu : channel.buffer.capacity = .unbounded) (v : Value) :
    ∃ channel' vs told, channel.Serves channel' vs told ∧
      w.Serves c x (w.opPut site c channel v) channel' vs told := by
  obtain ⟨channel', vs, hs, hget, hj⟩ := serves_putChannel (w := w) (c := c) hu v
  have hw : ∀ r, w.Withholds r (w.putChannel c channel v).2 := fun r =>
    (Withholds.refl r w).untouched (untouched_putChannel c channel v)
  simp only [opPut]
  cases hp : (w.putChannel c channel v).1 with
  | ignored | buffered =>
    rw [hp] at hs
    refine ⟨channel', vs, [], hs, hget, hj, ⟨[_], rfl, fun y hy r hr => ?_⟩, fun r _ => hw r⟩
    rw [List.mem_singleton.1 hy] at hr
    exact hr.elim
  | delivered t =>
    rw [hp] at hs
    refine ⟨channel', vs, _, hs, hget, hj, ⟨[_], rfl, fun y hy r hr => ?_⟩, fun r _ => hw r⟩
    rw [List.mem_singleton.1 hy] at hr
    exact hr.elim

/-- User code closes a channel. -/
theorem serves_opClose (site : Site) (channel : Channel Sink) : ∃ channel' vs told,
    channel.Serves channel' vs told ∧ w.Serves c x (w.opClose site c channel) channel' vs told := by
  have hserves : channel.Serves channel.close.2 [] (channel.close.1.map fun t => (t.sink, .ended)) := by
    unfold Channel.close
    split
    · exact .idle
    · exact .closes
  refine ⟨_, _, _, hserves, by simp [opClose], ⟨[], rfl, by simp⟩,
    ⟨[.reply site "close" .ok], ?_, fun y hy r hr => ?_⟩, fun r _ => .of_eq rfl⟩
  · simp [opClose]
  · rw [List.mem_singleton.1 hy] at hr
    exact hr.elim

theorem Serves.after {next : Config} {vs : List Value} {told : List (Sink × Delivery)}
    (h : w'.Serves c x next channel vs told) (hw : ∀ r, w.Withholds r w')
    (hj : ∃ es, w'.journal = es ++ w.journal ∧ ∀ e ∈ es, e.IsAside) :
    w.Serves c x next channel vs told where
  channel := h.channel
  journal := by
    obtain ⟨es, he, hes⟩ := h.journal
    obtain ⟨es', he', hes'⟩ := hj
    refine ⟨es ++ es', by rw [he, he', List.append_assoc, List.append_assoc, List.append_assoc],
      fun e hm => ?_⟩
    exact (List.mem_append.1 hm).elim (hes e) (hes' e)
  todo := h.todo
  withholds r hr := (hw r).trans (h.withholds r hr)

end World

section

variable {c : ChannelId} {w : World} {channel : Channel Sink} {x : Instr} {next : Config}

/-- Whatever serves a channel does nothing else there. -/
theorem Instr.serves (hs : x.Serves (· = c) w) (hx : x.exec w = some next)
    (hc : w.channels.get? c = some channel) (hu : channel.buffer.capacity = .unbounded) :
    ∃ channel' vs told, channel.Serves channel' vs told ∧
      w.Serves c x next channel' vs told := by
  cases x with
  | perform i job =>
    cases job with
    | reaction => exact hs.elim
    | errand e =>
      cases e with
      | put d v y =>
        obtain rfl : d = c := hs
        cases hx
        obtain ⟨channel', vs, told, hch, h⟩ := World.serves_putForEffect
          (w := w.record i (.fetched (.put d v y))) (x := .perform i (.errand (.put d v y))) hc hu v y
          fun r => ⟨fun ⟨z, hz, hr⟩ => by cases hz; exact hr, fun hr => ⟨y, rfl, hr⟩⟩
        refine ⟨channel', vs, told, hch, h.after (fun r => (World.Withholds.refl r w).record _)
          ⟨[.event i (.fetched (.put d v y))], rfl, fun e he => ?_⟩⟩
        rw [List.mem_singleton.1 he]
        rfl
      | _ => exact hs.elim
  | op site env o =>
    obtain ⟨w', hw, rfl⟩ := Option.map_eq_some_iff.1 hx
    obtain ⟨hchannels, hnames, hj, hwith⟩ : w'.channels = w.channels ∧
        w'.channelNames = w.channelNames ∧ w'.journal = w.journal ∧ ∀ r, w.Withholds r w' := by
      unfold World.spend at hw
      split at hw <;> cases hw
      exact ⟨rfl, rfl, rfl, fun r => .of_eq rfl⟩
    have hj : ∃ es, w'.journal = es ++ w.journal ∧ ∀ e ∈ es, e.IsAside := ⟨[], hj, by simp⟩
    rw [← hchannels] at hc
    cases o with
    | put name e =>
      obtain ⟨d, hn, rfl⟩ := hs
      rw [← hnames] at hn
      obtain ⟨channel', vs, told, hch, h⟩ := World.serves_opPut (w := w') (c := d)
        (x := .op site env (.put name e)) site hu (w'.eval env e)
      refine ⟨channel', vs, told, hch, .after ?_ hwith hj⟩
      simpa only [World.runOp, World.withChannel, hn, hc] using h
    | close name =>
      obtain ⟨d, hn, rfl⟩ := hs
      rw [← hnames] at hn
      obtain ⟨channel', vs, told, hch, h⟩ := World.serves_opClose (w := w') (c := d)
        (x := .op site env (.close name)) site channel
      refine ⟨channel', vs, told, hch, .after ?_ hwith hj⟩
      simpa only [World.runOp, World.withChannel, hn, hc] using h
    | _ => exact hs.elim
  | _ => exact hs.elim

end

/-! ## Custody -/

/-- The values that a channel accepted are where the list says. -/
structure World.Custody (w : World) (d : ChannelId) (channel : Channel Sink)
    (given : List Acceptance) : Prop where
  /-- Every accepted value is listed, in order. -/
  accepted : given.map (fun a => (a.mark, a.value)) = acceptedOn d w.journal
  /-- The values that nobody was given are buffered, in order. -/
  stored : given.filterMap Acceptance.kept? = channel.buffer.items
  /-- Nobody is given two values. -/
  once : (given.filterMap Acceptance.taker).Nodup
  /-- Whoever is given a value is a take that accepts it. -/
  takes : ∀ a ∈ given, ∀ r, a.taker = some r →
    ∃ p, w.TakesFrom r (.channel d) p ∧ p.accepts a.value = true
  /-- If the take is withdrawn, then after the value was accepted. -/
  late : ∀ a ∈ given, ∀ r, a.taker = some r → .withdrawn r.effect ∈ w.past r.mw →
    .event r.mw (.withdrawn r.effect) ∈ w.since a.mark
  /-- Takers of the channel are takes that were given nothing, and have not come to their end. -/
  waiting : ∀ b ∈ channel.takers, ∃ r, b.sink = .effect r ∧
    w.TakesFrom r (.channel d) b.pattern ∧ r ∉ given.filterMap Acceptance.taker ∧
      r.effect ∉ endedIn (w.past r.mw)
  /-- Nobody waits twice. -/
  distinct : (channel.takers.map Taker.sink).Nodup

section

variable {s : Scenario} {c c' : Config} {w w' : World} {d : ChannelId} {channel channel' : Channel Sink}
  {given : List Acceptance} {r : EffectRef} {x : Instr} {rest : List Instr}

theorem World.mem_past {i : MiddlewareId} {ev : Event} :
    ev ∈ w.past i ↔ .event i ev ∈ w.journal := by
  simp only [past, List.mem_filterMap]
  constructor
  · rintro ⟨e, he, hev⟩
    cases e with
    | event j e =>
      simp only [Option.ite_none_right_eq_some, Option.some.injEq] at hev
      obtain ⟨rfl, rfl⟩ := hev
      exact he
    | _ => cases hev
  · intro h
    exact ⟨_, h, by simp⟩

theorem mem_endedIn {past : List Event} {y : EffectId} :
    y ∈ endedIn past ↔ ∃ ev ∈ past, ev.ends? = some y := List.mem_filterMap

/-- A pending effect has not come to its end. -/
theorem Scenario.Visits.not_ended_of_claims (h : s.Visits c) (ha : c.world.Alive r.mw) {t : TaskId}
    {k : WaitKind} (hk : c.world.Claims r t k) : r.effect ∉ endedIn (c.world.past r.mw) := by
  obtain ⟨-, link, hw⟩ := hk
  have hA : Accounts (c.world.engine r.mw).waits _ (c.world.past r.mw) :=
    (h.kept ha.has).accounts (Config.alive_iff.2 ha)
  exact (hA.entries hw).2

/-- A taker that is there after a step has not come to its end, if it had not before. -/
theorem Scenario.Visits.not_ended_of_taker (h : s.Visits ⟨x :: rest, w⟩)
    (hc : Config.step ⟨x :: rest, w⟩ = some c') (hi : w.Has r.mw)
    (hd : c'.world.channels.get? d = some channel') {b : Taker Sink} (hb : b ∈ channel'.takers)
    (hs : b.sink = .effect r) (hn : r.effect ∉ endedIn (w.past r.mw)) :
    r.effect ∉ endedIn (c'.world.past r.mw) := by
  by_cases ha : c'.world.Alive r.mw
  · obtain ⟨t, hk⟩ := (h.step hc).wired.fits ha |>.backed (.channel hd hb hs)
    exact (h.step hc).not_ended_of_claims ha hk
  · intro hm
    obtain ⟨ev, hev, he⟩ := mem_endedIn.1 hm
    obtain ⟨G, D, es, hx, -, -, -, halive, -⟩ := h.own_of_event hi hc (Or.inr he)
      (fun hev => hn (mem_endedIn.2 ⟨ev, hev, he⟩)) hev
    exact ha (halive.trans (h.alive_of_owner hx))

namespace World.Custody

theorem mark_le (h : w.Custody d channel given) {a : Acceptance} (ha : a ∈ given) :
    a.mark ≤ w.journal.length := by
  refine mark_le_of_mem_acceptedOn (c := d) (v := a.value) ?_
  rw [← h.accepted]
  exact List.mem_map.2 ⟨a, ha, rfl⟩

/-- Whoever was given a value was so before a step. -/
theorem takes_step (h : c.world.Custody d channel given) (hv : s.Visits c) (hc : c.step = some c') :
    ∀ a ∈ given, ∀ r, a.taker = some r →
      ∃ p, c'.world.TakesFrom r (.channel d) p ∧ p.accepts a.value = true := by
  intro a ha r hr
  obtain ⟨p, hp, hacc⟩ := h.takes a ha r hr
  exact ⟨p, hv.issued_precedes (.step .refl hc) hp, hacc⟩

theorem late_append (h : w.Custody d channel given) {l : List Entry}
    (hj : w'.journal = l ++ w.journal) : ∀ a ∈ given, ∀ r, a.taker = some r →
      .withdrawn r.effect ∈ w'.past r.mw → .event r.mw (.withdrawn r.effect) ∈ w'.since a.mark := by
  intro a ha r hr hm
  rw [World.since_append hj (h.mark_le ha)]
  rw [World.mem_past, hj] at hm
  rcases List.mem_append.1 hm with hm | hm
  · exact List.mem_append_left _ hm
  · exact List.mem_append_right _ (h.late a ha r hr (World.mem_past.2 hm))

/-- Whoever waits after a step and did before has been given nothing in between. -/
theorem waiting_step (h : w.Custody d channel given) (hv : s.Visits ⟨x :: rest, w⟩)
    (hc : Config.step ⟨x :: rest, w⟩ = some c') (hd : c'.world.channels.get? d = some channel')
    {b : Taker Sink} (hb : b ∈ channel.takers) (hb' : b ∈ channel'.takers) : ∃ r, b.sink = .effect r ∧
      c'.world.TakesFrom r (.channel d) b.pattern ∧ r ∉ given.filterMap Acceptance.taker ∧
        r.effect ∉ endedIn (c'.world.past r.mw) := by
  obtain ⟨r, hs, ht, hg, hn⟩ := h.waiting b hb
  exact ⟨r, hs, hv.issued_precedes (.step .refl hc) ht, hg,
    hv.not_ended_of_taker hc ht.has hd hb' hs hn⟩

/-- What leaves a channel alone does not change who has its values. -/
theorem stays (h : w.Custody d channel given) (hv : s.Visits ⟨x :: rest, w⟩)
    (hc : Config.step ⟨x :: rest, w⟩ = some c') (hs : w.Stays d c'.world)
    (hd : w.channels.get? d = some channel) :
    ∃ channel', c'.world.channels.get? d = some channel' ∧ channel'.buffer = channel.buffer ∧
      c'.world.Custody d channel' given := by
  have hch := hs.channel
  rw [hd] at hch
  obtain ⟨channel', hd', hst⟩ := Option.Rel.right hch
  obtain ⟨es, hj, hes⟩ := hs.journal
  refine ⟨channel', hd', hst.buffer, ?_⟩
  exact {
    accepted := by rw [h.accepted, hj, acceptedOn_append hes]
    stored := by rw [h.stored, hst.buffer]
    once := h.once
    takes := h.takes_step hv hc
    late := h.late_append hj
    waiting := fun b hb => h.waiting_step hv hc hd' (hst.takers.subset hb) hb
    distinct := h.distinct.sublist (hst.takers.map _) }

/-- The channel accepts a value, which is given to a taker or kept. -/
theorem push (h : w.Custody d channel given) {es : List Entry} {v : Value}
    {o : Option EffectRef} (hj : w'.journal = .accepted d v :: (es ++ w.journal))
    (hes : ∀ e ∈ es, e.IsAside)
    (hold : ∀ a ∈ given, ∀ r, a.taker = some r →
      ∃ p, w'.TakesFrom r (.channel d) p ∧ p.accepts a.value = true)
    (hstored : channel'.buffer.items =
      channel.buffer.items ++ (Acceptance.kept? ⟨w'.journal.length, v, o⟩).toList)
    (htaker : ∀ r, o = some r → r ∉ given.filterMap Acceptance.taker ∧
      r.effect ∉ endedIn (w.past r.mw) ∧ ∃ p, w'.TakesFrom r (.channel d) p ∧ p.accepts v = true)
    (hwait : ∀ b ∈ channel'.takers, ∃ r, b.sink = .effect r ∧
      w'.TakesFrom r (.channel d) b.pattern ∧ r ∉ given.filterMap Acceptance.taker ∧
        r.effect ∉ endedIn (w'.past r.mw) ∧ o ≠ some r)
    (hd : (channel'.takers.map Taker.sink).Nodup) :
    w'.Custody d channel' (given ++ [⟨w'.journal.length, v, o⟩]) where
  accepted := by
    rw [List.map_append, h.accepted, hj]
    simp [acceptedOn, acceptedOn_append fun v hm => hes _ hm]
  stored := by
    rw [List.filterMap_append, h.stored, hstored]
    cases hk : Acceptance.kept? ⟨w'.journal.length, v, o⟩ <;> simp [hk]
  once := by
    rw [List.filterMap_append]
    cases o with
    | none => simpa using h.once
    | some r => exact h.once.append (List.nodup_singleton r) (by simpa using (htaker r rfl).1)
  takes a ha r hr := by
    rcases List.mem_append.1 ha with ha | ha
    · exact hold a ha r hr
    · rw [List.mem_singleton.1 ha] at hr ⊢
      exact (htaker r hr).2.2
  late a ha r hr hm := by
    rcases List.mem_append.1 ha with ha | ha
    · exact h.late_append (l := .accepted d v :: es) hj a ha r hr hm
    · -- what entered the journal as the value was accepted is not the end of an effect
      rw [List.mem_singleton.1 ha] at hr
      refine absurd (mem_endedIn.2 ⟨.withdrawn r.effect, ?_, rfl⟩) (htaker r hr).2.1
      rw [World.mem_past, hj] at hm
      rcases List.mem_cons.1 hm with hm | hm
      · cases hm
      · rcases List.mem_append.1 hm with hm | hm
        · cases hes _ hm
        · exact World.mem_past.2 hm
  waiting b hb := by
    obtain ⟨r, hs, ht, hg, hn, hne⟩ := hwait b hb
    refine ⟨r, hs, ht, ?_, hn⟩
    rw [List.filterMap_append, List.mem_append]
    rintro (hm | hm)
    · exact hg hm
    · exact hne (by simpa using hm)
  distinct := hd

/-- A channel is served: it accepts a value at most, and gives it to a taker or keeps it. -/
theorem serves {next : Config} {vs : List Value} {told : List (Sink × Delivery)}
    (h : w.Custody d channel given) (hv : s.Visits ⟨x :: rest, w⟩) (hx : x.exec w = some next)
    (hch : channel.Serves channel' vs told) (hs : w.Serves d x next channel' vs told) :
    ∃ given', next.world.Custody d channel' given' ∧
      ∀ r v, Gives given' r v ↔ Gives given r v ∨ (.effect r, .value v) ∈ told := by
  have hc : Config.step ⟨x :: rest, w⟩ = some (next.followedBy rest) :=
    Option.map_eq_some_iff.2 ⟨next, hx, rfl⟩
  obtain ⟨es, hj, hes⟩ := hs.journal
  have hwait : ∀ b ∈ channel.takers, b ∈ channel'.takers → ∃ r, b.sink = .effect r ∧
      next.world.TakesFrom r (.channel d) b.pattern ∧ r ∉ given.filterMap Acceptance.taker ∧
        r.effect ∉ endedIn (next.world.past r.mw) := fun b hb hb' =>
    h.waiting_step hv hc hs.channel hb hb'
  have hold := h.takes_step hv hc
  have hidle : channel'.buffer.items = channel.buffer.items → vs = [] →
      (∀ b ∈ channel'.takers, b ∈ channel.takers) → (channel'.takers.map Taker.sink).Nodup →
        next.world.Custody d channel' given := fun hb hvs hts hd => {
    accepted := by
      rw [h.accepted, hj, hvs, List.map_nil, List.nil_append,
        acceptedOn_append fun v hm => hes _ hm]
    stored := h.stored.trans hb.symm
    once := h.once
    takes := hold
    late := h.late_append (l := es) (by rw [hj, hvs]; rfl)
    waiting := fun b hb => hwait b (hts b hb) hb
    distinct := hd }
  cases hch with
  | idle => exact ⟨given, hidle rfl rfl (fun _ hb => hb) h.distinct, by simp⟩
  | closes => exact ⟨given, hidle rfl rfl (fun b hb => by cases hb) .nil, by simp⟩
  | stores v =>
    refine ⟨_, h.push (o := none) hj hes hold rfl (fun r hr => by cases hr) (fun b hb => ?_)
      h.distinct, fun r u => by simp [Gives.append]⟩
    obtain ⟨r, h₁, h₂, h₃, h₄⟩ := hwait b hb hb
    exact ⟨r, h₁, h₂, h₃, h₄, nofun⟩
  | @hands pre post t v htakers hacc =>
    obtain ⟨r, hr, htake, hg, hend⟩ := h.waiting t (htakers ▸ List.mem_append_right _ List.mem_cons_self)
    have htake : (next.followedBy rest).world.TakesFrom r (.channel d) t.pattern :=
      hv.issued_precedes (.step .refl hc) htake
    have hsub : (pre ++ post).Sublist channel.takers :=
      htakers ▸ (List.sublist_cons_self t post).append_left pre
    have hd := h.distinct
    rw [htakers, List.map_append, List.map_cons, List.nodup_middle, List.nodup_cons,
      ← List.map_append] at hd
    refine ⟨_, h.push (o := some r) hj hes hold (by simp [Acceptance.kept?])
      (fun r' hr' => ?_) (fun b hb => ?_) hd.2, fun r' u => ?_⟩
    · cases hr'
      exact ⟨hg, hend, _, htake, hacc⟩
    · obtain ⟨r', h₁, h₂, h₃, h₄⟩ := hwait b (hsub.subset hb) hb
      refine ⟨r', h₁, h₂, h₃, h₄, fun hrr => hd.1 ?_⟩
      cases hrr
      exact List.mem_map.2 ⟨b, hb, h₁.trans hr.symm⟩
    · simp only [Gives.append, List.mem_singleton, hr, Prod.mk.injEq, Sink.effect.injEq,
        Option.some.injEq, Delivery.value.injEq]
      tauto

end World.Custody

end

/-! ## Taking from a channel -/

section

variable {s : Scenario} {c c' : Config} {w w' : World} {d : ChannelId} {channel : Channel Sink}
  {given : List Acceptance} {r : EffectRef} {x : Instr} {rest : List Instr} {turn : Turn} {b : Body}
  {nests : List Nest} {p : Pattern}

/-- The take that is started next was not known before. -/
theorem Scenario.Visits.unknown (h : s.Visits ⟨x :: rest, w⟩) {i : MiddlewareId}
    (hx : x.owner? = some i) : (w.engine i).nextEffect ∉ triggeredIn (w.past i) := fun hm => by
  have ha := h.alive_of_owner hx
  obtain ⟨t, q, e, hm⟩ := mem_triggeredIn.1 hm
  exact Nat.lt_irrefl _ ((h.sound ha.has).tabled (Config.alive_iff.2 ha) |>.named hm)

/-- A take from a channel is started: it is served at once, or it has a taker there. -/
theorem World.execTrigger_take (hl : w.isHalted turn.mw turn.task = false)
    (hd : w.channels.get? d = some channel) (hr : r = ⟨turn.mw, (w.engine turn.mw).nextEffect⟩) :
    (w.execTrigger turn b nests (.take (.channel d) p)).world.channels.get? d =
        some (channel.take p (.effect r)).channel ∧
      ∃ u q notes, (w.execTrigger turn b nests (.take (.channel d) p)).world.journal =
        ((channel.take p (.effect r)).delivery.map fun e =>
            Entry.event r.mw (.settled r.effect (.ofDelivery e))).toList ++
          (notes : List Note).map .note ++
            .event r.mw (.triggered u r.effect q (.take (.channel d) p)) :: w.journal := by
  subst hr
  have hd' : ∀ f e, ((w.setEngine turn.mw f).record turn.mw e).channels.get? d = some channel :=
    fun _ _ => hd
  simp only [execTrigger, hl, Bool.false_eq_true, if_false, startTake, hd', takeChannel]
  cases (channel.take p (.effect ⟨turn.mw, (w.engine turn.mw).nextEffect⟩)).delivery with
  | none =>
    refine ⟨by simp [insertWait, suspend, record, enter, setEngine], turn.task,
      (Nest.link nests).parent?, (channel.takeNotes p).reverse, ?_⟩
    simp only [suspend, insertWait, setEngine, journal_enterNotes, List.map_reverse]
    rfl
  | some e =>
    refine ⟨by simp [immediate, record, enter, setEngine], turn.task, (Nest.link nests).parent?,
      (channel.takeNotes p).reverse, ?_⟩
    simp only [immediate, record, enter, setEngine, journal_enterNotes, List.map_reverse]
    rfl

end

end SagaMachine
