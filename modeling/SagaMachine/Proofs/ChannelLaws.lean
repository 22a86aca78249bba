import Mathlib.Data.List.Nodup
import Mathlib.Data.List.Perm.Basic
import SagaMachine.Proofs.ChannelSteps

/-!
# The laws of channels

A ledger is a channel together with the story of its use: which values were put and what
has become of each of them, which takers were registered, which of them were served, and which
were withdrawn. Values are put, and takers registered, withdrawn and told of the end, in any order.
This covers operations that are issued while a taker is being served. A put and a take serve as
the last thing they do, and while the takers of a channel that is closed are told of the end, one
after the other, anything may happen in between.

Main statement: `Ledger.laws`.
-/

namespace SagaMachine

/-! ## Ledgers -/

/-- What has become of a value that was put. -/
inductive Fate where
  /-- A taker got it. -/
  | delivered (taker : TakerId)
  | stored
  | rejected (f : Fault)
  | lost (why : Loss)

/-- A taker that was served: with the value of a put, or with the end of the channel. -/
structure Firing (κ : Type) where
  taker : Taker κ
  value : Option (Nat × Value)

/-- A channel and the story of its use. -/
structure Ledger (κ : Type) where
  channel : Channel κ
  /-- The takers that are still to be told of the end. -/
  due : List (Taker κ) := []
  /-- The values that were put, in order. -/
  values : List Value := []
  /-- What has become of them, by their numbers. -/
  fate : Nat → Fate := fun _ => .stored
  /-- The puts whose values are stored, oldest first. -/
  stock : List (Nat × Value) := []
  /-- All takers, in order. -/
  registered : List (Taker κ) := []
  /-- The takers that were served, in order. -/
  fired : List (Firing κ) := []
  /-- The takers that were withdrawn. -/
  withdrawn : List TakerId := []

/-- A move of a ledger. -/
inductive Move (κ : Type) where
  | put (v : Value)
  | take (p : Pattern) (sink : κ)
  | cancel (id : TakerId)
  | close
  /-- The next taker is told of the end. -/
  | tell

namespace Ledger

variable {κ : Type}

/-- A new channel. -/
def start (b : Buffer) : Ledger κ := { channel := { buffer := b } }

/-- Settle the fate of a put. -/
def mark (s : Ledger κ) (n : Nat) (f : Fate) : Ledger κ :=
  { s with fate := fun m => if m = n then f else s.fate m }

def put (s : Ledger κ) (v : Value) : Ledger κ :=
  let n := s.values.length
  let r := s.channel.put v
  let s' : Ledger κ := { s with channel := r.2, values := s.values ++ [v] }
  match r.1 with
  | .ignored => s'.mark n (.lost .closed)
  | .delivered t =>
    { s'.mark n (.delivered t.id) with fired := s.fired ++ [⟨t, some (n, v)⟩] }
  | .buffered _ =>
    match s.channel.buffer.admission with
    | .stores => { s'.mark n .stored with stock := s.stock ++ [(n, v)] }
    | .evicts =>
      { (s.stock.head?.elim s' fun e => s'.mark e.1 (.lost (.evicted n))).mark n .stored with
        stock := s.stock.tail ++ [(n, v)] }
    | .refuses f => s'.mark n (.rejected f)
    | .drops why => s'.mark n (.lost why)

def take (s : Ledger κ) (p : Pattern) (sink : κ) : Ledger κ :=
  let r := s.channel.take p sink
  let t : Taker κ := ⟨r.id, p, sink⟩
  let s' : Ledger κ := { s with channel := r.channel, registered := s.registered ++ [t] }
  match r.delivery with
  | none => s'
  | some .ended => { s' with fired := s.fired ++ [⟨t, none⟩] }
  | some (.value v) =>
    match s.stock.find? fun e => p.accepts e.2 with
    | none => s'
    | some e =>
      { s'.mark e.1 (.delivered t.id) with
        stock := s.stock.eraseP fun e => p.accepts e.2
        fired := s.fired ++ [⟨t, some (e.1, v)⟩] }

def cancel (s : Ledger κ) (id : TakerId) : Ledger κ :=
  let r := s.channel.cancelTaker id
  { s with
    channel := r.2
    withdrawn := if r.1 then s.withdrawn ++ [id] else s.withdrawn }

def close (s : Ledger κ) : Ledger κ :=
  let r := s.channel.close
  { s with channel := r.2, due := s.due ++ r.1 }

def tell (s : Ledger κ) : Ledger κ :=
  match s.due with
  | [] => s
  | t :: rest => { s with due := rest, fired := s.fired ++ [⟨t, none⟩] }

/-- Make a move. -/
def step (s : Ledger κ) : Move κ → Ledger κ
  | .put v => s.put v
  | .take p sink => s.take p sink
  | .cancel id => s.cancel id
  | .close => s.close
  | .tell => s.tell

/-- Make several moves, one after the other. -/
def run (s : Ledger κ) (ms : List (Move κ)) : Ledger κ := ms.foldl step s

end Ledger

/-! ## The invariant -/

/-- What the fate of a put says about the channel is so. -/
def Ledger.Justified {κ : Type} (s : Ledger κ) (n : Nat) : Fate → Prop
  | .delivered _ | .stored => True
  | .rejected f => s.channel.buffer.overflow = .reject ∧
      ∃ limit, s.channel.buffer.capacity = .bounded limit ∧ f = .overflow limit
  | .lost .closed => s.channel.closed = true
  | .lost .noRoom => s.channel.buffer.capacity = .none ∨ s.channel.buffer.capacity = .bounded 0
  | .lost .full => s.channel.buffer.overflow = .dropNewest ∧
      ∃ limit, s.channel.buffer.capacity = .bounded limit
  | .lost (.evicted m) => (s.channel.buffer.overflow = .dropOldest ∧
      ∃ limit, s.channel.buffer.capacity = .bounded limit) ∧ n < m ∧ m < s.values.length ∧
        ∀ e ∈ s.stock, n < e.1

/-- The takers of a ledger: each of them is in one place. -/
structure Ledger.Queued {κ : Type} (s : Ledger κ) : Prop where
  apart : ∀ t ∈ s.channel.takers, ∀ v ∈ s.channel.buffer.items, t.pattern.accepts v = false
  shut : s.channel.closed = true → s.channel.takers = []
  once : (s.channel.takers ++ s.due ++ s.fired.map Firing.taker).map Taker.id ++ s.withdrawn |>.Perm
    (s.registered.map Taker.id)
  known : ∀ t ∈ s.channel.takers ++ s.due ++ s.fired.map Firing.taker, t ∈ s.registered
  numbered : s.registered.map Taker.id = List.range' 1 s.registered.length
  next : s.channel.nextTaker = s.registered.length + 1
  order : (s.channel.takers.map Taker.id).Pairwise (· < ·)
  ended : (s.due ≠ [] ∨ ∃ f ∈ s.fired, f.value = none) → s.channel.closed = true

/-- The values of a ledger: each of them has met its fate. -/
structure Ledger.Stocked {κ : Type} (s : Ledger κ) : Prop where
  items : s.channel.buffer.items = s.stock.map Prod.snd
  stored : ∀ {n v}, (n, v) ∈ s.stock ↔ s.values[n]? = some v ∧ s.fate n = .stored
  sorted : s.stock.Pairwise (·.1 < ·.1)
  served : ∀ f ∈ s.fired, ∀ {n v}, f.value = some (n, v) → f.taker.pattern.accepts v = true ∧
    s.values[n]? = some v ∧ s.fate n = .delivered f.taker.id
  delivered : ∀ {n v id}, s.values[n]? = some v → s.fate n = .delivered id →
    ∃ f ∈ s.fired, f.taker.id = id ∧ f.value = some (n, v)
  fifo : s.fired.Pairwise fun f g => ∀ {m u n v}, f.value = some (m, u) → g.value = some (n, v) →
    f.taker.pattern.accepts v = true → m < n
  ahead : ∀ f ∈ s.fired, ∀ {m u}, f.value = some (m, u) → ∀ e ∈ s.stock,
    f.taker.pattern.accepts e.2 = true → m < e.1
  justified : ∀ {n}, n < s.values.length → s.Justified n (s.fate n)

namespace Ledger

variable {κ : Type} {s s' : Ledger κ}

/-! ## One move -/

/-- Everything that one move may come to. -/
inductive Becomes (s : Ledger κ) : Ledger κ → Prop
  /-- Nothing is pending that the move is about. -/
  | rests : s.Becomes s
  /-- The value of a put is lost or rejected. -/
  | refuses {v : Value} {f : Fate} (hf : (∃ e, f = .rejected e) ∨ ∃ why, f = .lost why)
      (just : s.Justified s.values.length f) :
      s.Becomes (({ s with values := s.values ++ [v] } : Ledger κ).mark s.values.length f)
  /-- A put goes to a taker. -/
  | hands {v : Value} {pre post : List (Taker κ)} {t : Taker κ}
      (takers : s.channel.takers = pre ++ t :: post) (accepts : t.pattern.accepts v = true) :
      s.Becomes { ({ s with values := s.values ++ [v] } : Ledger κ).mark s.values.length
          (.delivered t.id) with
        channel := { s.channel with takers := pre ++ post }
        fired := s.fired ++ [⟨t, some (s.values.length, v)⟩] }
  /-- The value of a put is stored. -/
  | stores {v : Value} (free : ∀ t ∈ s.channel.takers, t.pattern.accepts v = false) :
      s.Becomes { ({ s with values := s.values ++ [v] } : Ledger κ).mark s.values.length .stored with
        channel := { s.channel with
          buffer := { s.channel.buffer with items := s.channel.buffer.items ++ [v] } }
        stock := s.stock ++ [(s.values.length, v)] }
  /-- The value of a put is stored, and the oldest one is dropped. -/
  | evicts {v : Value} {e : Nat × Value} {rest : List (Nat × Value)} {limit : Nat}
      (free : ∀ t ∈ s.channel.takers, t.pattern.accepts v = false) (stock : s.stock = e :: rest)
      (sliding : s.channel.buffer.overflow = .dropOldest)
      (bounded : s.channel.buffer.capacity = .bounded limit) :
      s.Becomes { (({ s with values := s.values ++ [v] } : Ledger κ).mark e.1
          (.lost (.evicted s.values.length))).mark s.values.length .stored with
        channel := { s.channel with
          buffer := { s.channel.buffer with items := rest.map Prod.snd ++ [v] } }
        stock := rest ++ [(s.values.length, v)] }
  /-- A new taker gets a value that was stored. -/
  | serves {p : Pattern} {sink : κ} {pre post : List (Nat × Value)} {n : Nat} {v : Value}
      (stock : s.stock = pre ++ (n, v) :: post) (accepts : p.accepts v = true)
      (first : ∀ e ∈ pre, p.accepts e.2 = false) :
      s.Becomes { s.mark n (.delivered s.channel.nextTaker) with
        channel := { s.channel with
          nextTaker := s.channel.nextTaker + 1
          buffer := { s.channel.buffer with items := (pre ++ post).map Prod.snd } }
        registered := s.registered ++ [⟨s.channel.nextTaker, p, sink⟩]
        stock := pre ++ post
        fired := s.fired ++ [⟨⟨s.channel.nextTaker, p, sink⟩, some (n, v)⟩] }
  /-- A new taker meets the end of the channel. -/
  | ends {p : Pattern} {sink : κ} (closed : s.channel.closed = true) :
      s.Becomes { s with
        channel := { s.channel with nextTaker := s.channel.nextTaker + 1 }
        registered := s.registered ++ [⟨s.channel.nextTaker, p, sink⟩]
        fired := s.fired ++ [⟨⟨s.channel.nextTaker, p, sink⟩, none⟩] }
  /-- A new taker waits. -/
  | waits {p : Pattern} {sink : κ} (opened : s.channel.closed = false)
      (free : ∀ v ∈ s.channel.buffer.items, p.accepts v = false) :
      s.Becomes { s with
        channel := { s.channel with
          nextTaker := s.channel.nextTaker + 1
          takers := s.channel.takers ++ [⟨s.channel.nextTaker, p, sink⟩] }
        registered := s.registered ++ [⟨s.channel.nextTaker, p, sink⟩] }
  | withdraws {pre post : List (Taker κ)} {t : Taker κ}
      (takers : s.channel.takers = pre ++ t :: post) :
      s.Becomes { s with
        channel := { s.channel with takers := pre ++ post }
        withdrawn := s.withdrawn ++ [t.id] }
  | closes :
      s.Becomes { s with
        channel := { s.channel with takers := [], closed := true }
        due := s.due ++ s.channel.takers }
  | tells {t : Taker κ} {rest : List (Taker κ)} (due : s.due = t :: rest) :
      s.Becomes { s with due := rest, fired := s.fired ++ [⟨t, none⟩] }

/-- Where the takers are, by their numbers. -/
def places (s : Ledger κ) : List TakerId :=
  (s.channel.takers ++ s.due ++ s.fired.map Firing.taker).map Taker.id ++ s.withdrawn

theorem count_places (s : Ledger κ) (a : TakerId) :
    s.places.count a = (s.channel.takers.map Taker.id).count a + (s.due.map Taker.id).count a +
      ((s.fired.map Firing.taker).map Taker.id).count a + s.withdrawn.count a := by
  simp only [places, List.map_append, List.count_append]

/-- The takers only change their places. -/
theorem Queued.moved (hq : s.Queued) (hreg : s'.registered = s.registered)
    (hnext : s'.channel.nextTaker = s.channel.nextTaker)
    (hitems : ∀ t ∈ s'.channel.takers, ∀ v ∈ s'.channel.buffer.items, t.pattern.accepts v = false)
    (hshut : s'.channel.closed = true → s'.channel.takers = [])
    (hplaces : ∀ a, s'.places.count a = s.places.count a) (htakers : s'.channel.takers.Sublist s.channel.takers)
    (hknown : ∀ t ∈ s'.channel.takers ++ s'.due ++ s'.fired.map Firing.taker,
      t ∈ s.channel.takers ++ s.due ++ s.fired.map Firing.taker)
    (hended : (s'.due ≠ [] ∨ ∃ f ∈ s'.fired, f.value = none) → s'.channel.closed = true) :
    s'.Queued where
  apart := hitems
  shut := hshut
  once := hreg ▸ (List.perm_iff_count.2 hplaces).trans hq.once
  known t ht := hreg ▸ hq.known t (hknown t ht)
  numbered := by rw [hreg, hq.numbered]
  next := by rw [hnext, hreg, hq.next]
  order := hq.order.sublist (htakers.map _)
  ended := hended

/-- A new taker comes in. -/
theorem Queued.register (hq : s.Queued) {t : Taker κ} (ht : t.id = s.channel.nextTaker)
    (hreg : s'.registered = s.registered ++ [t])
    (hnext : s'.channel.nextTaker = s.channel.nextTaker + 1)
    (hitems : ∀ t ∈ s'.channel.takers, ∀ v ∈ s'.channel.buffer.items, t.pattern.accepts v = false)
    (hshut : s'.channel.closed = true → s'.channel.takers = [])
    (hplaces : ∀ a, s'.places.count a = (s.places ++ [t.id]).count a)
    (htakers : s'.channel.takers = s.channel.takers ∨ s'.channel.takers = s.channel.takers ++ [t])
    (hknown : ∀ u ∈ s'.channel.takers ++ s'.due ++ s'.fired.map Firing.taker,
      u ∈ s.channel.takers ++ s.due ++ s.fired.map Firing.taker ∨ u = t)
    (hended : (s'.due ≠ [] ∨ ∃ f ∈ s'.fired, f.value = none) → s'.channel.closed = true) :
    s'.Queued where
  apart := hitems
  shut := hshut
  once := by
    show s'.places.Perm _
    rw [hreg, List.map_append]
    exact (List.perm_iff_count.2 hplaces).trans (hq.once.append_right _)
  known u hu := by
    rw [hreg]
    rcases hknown u hu with hu | rfl
    · exact List.mem_append_left _ (hq.known u hu)
    · exact List.mem_append_right _ List.mem_cons_self
  numbered := by
    rw [hreg, List.map_append, hq.numbered, List.length_append, List.length_singleton,
      List.range'_1_concat, List.map_singleton, ht, hq.next, Nat.add_comm]
  next := by rw [hnext, hreg, hq.next, List.length_append, List.length_singleton]
  order := by
    rcases htakers with htakers | htakers
    · rw [htakers]
      exact hq.order
    · rw [htakers, List.map_append, List.pairwise_append]
      refine ⟨hq.order, List.pairwise_singleton _ _, fun a ha b hb => ?_⟩
      rw [List.mem_singleton.1 hb, ht, hq.next]
      obtain ⟨u, hu, rfl⟩ := List.mem_map.1 ha
      have hu : u.id ∈ s.registered.map Taker.id :=
        List.mem_map_of_mem (hq.known u (List.mem_append_left _ (List.mem_append_left _ hu)))
      rw [hq.numbered, List.mem_range'_1] at hu
      exact Nat.add_comm _ _ ▸ hu.2
  ended := hended

theorem Becomes.queued (h : s.Becomes s') (hq : s.Queued) (hs : s.Stocked) : s'.Queued := by
  have hfired : ∀ {f : Firing κ}, f.value ≠ none →
      (s.due ≠ [] ∨ ∃ g ∈ s.fired ++ [f], g.value = none) → s.channel.closed = true := by
    rintro f hf (hd | ⟨g, hg, hv⟩)
    · exact hq.ended (Or.inl hd)
    · rcases List.mem_append.1 hg with hg | hg
      · exact hq.ended (Or.inr ⟨g, hg, hv⟩)
      · rw [List.mem_singleton.1 hg] at hv
        exact absurd hv hf
  cases h with
  | rests => exact hq
  | refuses => exact hq.moved rfl rfl hq.apart hq.shut (fun _ => rfl) (.refl _) (fun _ => id) hq.ended
  | @hands v pre post t takers accepts =>
    have hsub : (pre ++ post).Sublist s.channel.takers := by
      rw [takers]
      exact (List.sublist_cons_self t post).append_left pre
    refine hq.moved rfl rfl (fun u hu => hq.apart u (hsub.subset hu)) (fun hc => ?_) ?_ hsub ?_
      (hfired (by simp))
    · have := hq.shut hc
      simp [takers] at this
    · intro a
      simp only [count_places, mark, takers, List.map_append, List.map_cons, List.map_nil, List.count_append,
        List.count_cons, List.count_nil]
      omega
    · intro u hu
      simp only [takers, List.map_append, List.mem_append, List.mem_cons, List.map_cons,
        List.map_nil, List.not_mem_nil, or_false] at hu ⊢
      tauto
  | @stores v free =>
    refine hq.moved rfl rfl (fun u hu w hw => ?_) hq.shut (fun _ => rfl) (.refl _) (fun _ => id)
      hq.ended
    rcases List.mem_append.1 hw with hw | hw
    · exact hq.apart u hu w hw
    · rw [List.mem_singleton.1 hw]
      exact free u hu
  | @evicts v e rest limit free stock =>
    refine hq.moved rfl rfl (fun u hu w hw => ?_) hq.shut (fun _ => rfl) (.refl _) (fun _ => id)
      hq.ended
    rcases List.mem_append.1 hw with hw | hw
    · refine hq.apart u hu w ?_
      rw [hs.items, stock]
      exact List.mem_cons_of_mem _ hw
    · rw [List.mem_singleton.1 hw]
      exact free u hu
  | @serves p sink pre post n v stock accepts first =>
    refine hq.register rfl rfl rfl (fun u hu w hw => hq.apart u hu w ?_) hq.shut ?_ (Or.inl rfl) ?_
      (hfired (by simp))
    · rw [hs.items, stock]
      simp only [List.map_append, List.mem_append, List.map_cons, List.mem_cons] at hw ⊢
      tauto
    · intro a
      simp only [count_places, mark, List.map_append, List.map_cons, List.map_nil, List.count_append,
        List.count_cons, List.count_nil]
      omega
    · intro u hu
      simp only [List.map_append, List.mem_append, List.mem_cons, List.map_cons, List.map_nil,
        List.not_mem_nil, or_false] at hu ⊢
      tauto
  | @ends p sink closed =>
    refine hq.register rfl rfl rfl hq.apart hq.shut ?_ (Or.inl rfl) ?_ (fun _ => closed)
    · intro a
      simp only [count_places, List.map_append, List.map_cons, List.map_nil, List.count_append,
        List.count_cons, List.count_nil]
      omega
    · intro u hu
      simp only [List.map_append, List.mem_append, List.mem_cons, List.map_cons, List.map_nil,
        List.not_mem_nil, or_false] at hu ⊢
      tauto
  | @waits p sink opened free =>
    refine hq.register rfl rfl rfl (fun u hu w hw => ?_) (fun hc => ?_) ?_ (Or.inr rfl) ?_ hq.ended
    · rcases List.mem_append.1 hu with hu | hu
      · exact hq.apart u hu w hw
      · rw [List.mem_singleton.1 hu]
        exact free w hw
    · rw [show s.channel.closed = true from hc] at opened
      cases opened
    · intro a
      simp only [count_places, List.map_append, List.map_cons, List.map_nil, List.count_append,
        List.count_cons, List.count_nil]
      omega
    · intro u hu
      simp only [List.mem_append, List.mem_cons, List.not_mem_nil, or_false] at hu ⊢
      tauto
  | @withdraws pre post t takers =>
    have hsub : (pre ++ post).Sublist s.channel.takers := by
      rw [takers]
      exact (List.sublist_cons_self t post).append_left pre
    refine hq.moved rfl rfl (fun u hu => hq.apart u (hsub.subset hu)) (fun hc => ?_) ?_ hsub ?_
      hq.ended
    · have := hq.shut hc
      simp [takers] at this
    · intro a
      simp only [count_places, takers, List.map_append, List.map_cons, List.count_append,
        List.count_cons, List.count_nil]
      omega
    · intro u hu
      simp only [takers, List.mem_append, List.mem_cons] at hu ⊢
      tauto
  | closes =>
    refine hq.moved rfl rfl (fun u hu => by cases hu) (fun _ => rfl) ?_ (List.nil_sublist _) ?_
      (fun _ => rfl)
    · intro a
      simp only [count_places, List.map_append, List.map_nil, List.count_append,
        List.count_nil]
      omega
    · intro u hu
      simp only [List.nil_append, List.mem_append] at hu ⊢
      tauto
  | @tells t rest due =>
    have hclosed : s.channel.closed = true := hq.ended (Or.inl (by simp [due]))
    refine hq.moved rfl rfl hq.apart hq.shut ?_ (.refl _) ?_ (fun _ => hclosed)
    · intro a
      simp only [count_places, due, List.map_append, List.map_cons, List.map_nil, List.count_append,
        List.count_cons, List.count_nil]
      omega
    · intro u hu
      simp only [due, List.map_append, List.mem_append, List.mem_cons, List.map_cons, List.map_nil,
        List.not_mem_nil, or_false] at hu ⊢
      tauto

/-! ## The fates of the values -/

theorem Justified.mono {n : Nat} {f : Fate} (h : s.Justified n f)
    (hc : s'.channel.buffer.capacity = s.channel.buffer.capacity)
    (ho : s'.channel.buffer.overflow = s.channel.buffer.overflow)
    (hclosed : s.channel.closed = true → s'.channel.closed = true)
    (hlen : s.values.length ≤ s'.values.length) (hstock : ∀ e ∈ s'.stock, e ∈ s.stock ∨ n < e.1) :
    s'.Justified n f := by
  cases f with
  | delivered | stored => trivial
  | rejected e => exact ⟨ho ▸ h.1, hc ▸ h.2⟩
  | lost why =>
    cases why with
    | closed => exact hclosed h
    | noRoom =>
      unfold Justified at h ⊢
      rwa [hc]
    | full => exact ⟨ho ▸ h.1, hc ▸ h.2⟩
    | evicted m =>
      obtain ⟨⟨h1, h2⟩, h3, h4, h5⟩ := h
      exact ⟨⟨ho ▸ h1, hc ▸ h2⟩, h3, Nat.lt_of_lt_of_le h4 hlen,
        fun e he => (hstock e he).elim (h5 e) id⟩

/-- The number of a put tells its value. -/
theorem getElem?_concat_eq_some {vs : List Value} {v u : Value} {n : Nat} :
    (vs ++ [v])[n]? = some u ↔ vs[n]? = some u ∨ n = vs.length ∧ u = v := by
  rw [List.getElem?_append]
  split
  · rename_i hn
    constructor
    · exact Or.inl
    · rintro (h | ⟨rfl, -⟩)
      · exact h
      · exact absurd hn (Nat.lt_irrefl _)
  · rename_i hn
    rw [List.getElem?_eq_none (Nat.not_lt.1 hn)]
    constructor
    · intro h
      obtain ⟨hlt, rfl⟩ := List.getElem?_eq_some_iff.1 h
      simp only [List.length_singleton, Nat.lt_one_iff] at hlt
      refine Or.inr ⟨by omega, ?_⟩
      simp [hlt]
    · rintro (h | ⟨rfl, rfl⟩)
      · cases h
      · simp

theorem lt_of_getElem? {vs : List Value} {u : Value} {n : Nat} (h : vs[n]? = some u) :
    n < vs.length :=
  (List.getElem?_eq_some_iff.1 h).1

namespace Stocked

variable (hs : s.Stocked)
include hs

theorem lt_of_stock {e : Nat × Value} (he : e ∈ s.stock) : e.1 < s.values.length :=
  lt_of_getElem? (hs.stored.1 (show (e.1, e.2) ∈ s.stock from he)).1

theorem lt_of_served {f : Firing κ} (hf : f ∈ s.fired) {n : Nat} {v : Value}
    (hv : f.value = some (n, v)) : n < s.values.length :=
  lt_of_getElem? (hs.served f hf hv).2.1

/-- A new value meets another fate than to be stored. -/
theorem put {v : Value} {f : Fate} (hf : f ≠ .stored)
    (hvalues : s'.values = s.values ++ [v])
    (hfate : s'.fate = (s.mark s.values.length f).fate) (hstock : s'.stock = s.stock)
    (hitems : s'.channel.buffer = s.channel.buffer) (hclosed : s'.channel.closed = s.channel.closed)
    (hfired : (∀ id, f ≠ .delivered id) ∧ s'.fired = s.fired ∨
      ∃ t : Taker κ, f = .delivered t.id ∧ t.pattern.accepts v = true ∧
        (∀ u ∈ s.channel.buffer.items, t.pattern.accepts u = false) ∧
        s'.fired = s.fired ++ [⟨t, some (s.values.length, v)⟩])
    (hjust : s.Justified s.values.length f) : s'.Stocked := by
  have hold : ∀ {n u}, s.values[n]? = some u → s'.fate n = s.fate n := fun {n u} hn => by
    rw [hfate]
    exact if_neg (Nat.ne_of_lt (lt_of_getElem? hn))
  have hnew : s'.fate s.values.length = f := by
    rw [hfate]
    exact if_pos rfl
  have hkept : ∀ g ∈ s.fired, ∀ {n u}, g.value = some (n, u) → g.taker.pattern.accepts u = true ∧
      s'.values[n]? = some u ∧ s'.fate n = .delivered g.taker.id := fun g hg n u hv => by
    obtain ⟨h1, h2, h3⟩ := hs.served g hg hv
    exact ⟨h1, by rw [hvalues, getElem?_concat_eq_some]; exact Or.inl h2, (hold h2).trans h3⟩
  have hfuture : ∀ {n u}, s'.values[n]? = some u ↔ s.values[n]? = some u ∨
      n = s.values.length ∧ u = v := by
    intro n u
    rw [hvalues, getElem?_concat_eq_some]
  refine ⟨?_, ?_, ?_, ?_, ?_, ?_, ?_, ?_⟩
  · rw [hitems, hstock]
    exact hs.items
  · intro n u
    rw [hstock, hs.stored, hfuture]
    constructor
    · exact fun ⟨h1, h2⟩ => ⟨Or.inl h1, (hold h1).trans h2⟩
    · rintro ⟨h1 | ⟨rfl, rfl⟩, h2⟩
      · exact ⟨h1, (hold h1).symm.trans h2⟩
      · exact absurd (hnew.symm.trans h2) hf
  · rw [hstock]
    exact hs.sorted
  · rcases hfired with ⟨-, hfired⟩ | ⟨t, rfl, ht, -, hfired⟩
    · rw [hfired]
      exact hkept
    · rw [hfired]
      intro g hg n u hv
      rcases List.mem_append.1 hg with hg | hg
      · exact hkept g hg hv
      · rw [List.mem_singleton.1 hg] at hv ⊢
        cases hv
        exact ⟨ht, hfuture.2 (Or.inr ⟨rfl, rfl⟩), hnew⟩
  · intro n u id hn hid
    rcases hfuture.1 hn with hn | ⟨rfl, rfl⟩
    · obtain ⟨g, hg, h⟩ := hs.delivered hn ((hold hn).symm.trans hid)
      refine ⟨g, ?_, h⟩
      rcases hfired with ⟨-, hfired⟩ | ⟨t, -, -, -, hfired⟩ <;> rw [hfired]
      · exact hg
      · exact List.mem_append_left _ hg
    · rw [hnew] at hid
      rcases hfired with ⟨hno, -⟩ | ⟨t, rfl, -, -, hfired⟩
      · exact absurd hid (hno id)
      · cases hid
        exact ⟨_, hfired ▸ List.mem_append_right _ List.mem_cons_self, rfl, rfl⟩
  · rcases hfired with ⟨-, hfired⟩ | ⟨t, rfl, ht, -, hfired⟩
    · rw [hfired]
      exact hs.fifo
    · rw [hfired, List.pairwise_append]
      refine ⟨hs.fifo, List.pairwise_singleton _ _, fun g hg g' hg' m u n w hm hn _ => ?_⟩
      rw [List.mem_singleton.1 hg'] at hn
      cases hn
      exact hs.lt_of_served hg hm
  · rw [hstock]
    rcases hfired with ⟨-, hfired⟩ | ⟨t, rfl, ht, hapart, hfired⟩
    · rw [hfired]
      exact hs.ahead
    · rw [hfired]
      intro g hg m u hm e he hacc
      rcases List.mem_append.1 hg with hg | hg
      · exact hs.ahead g hg hm e he hacc
      · -- the taker was pending, so it accepts nothing that is stored
        rw [List.mem_singleton.1 hg] at hacc
        rw [hapart e.2 (hs.items ▸ List.mem_map_of_mem he)] at hacc
        cases hacc
  · intro n hn
    rw [hvalues, List.length_append, List.length_singleton] at hn
    have hmono : ∀ {f}, s.Justified n f → s'.Justified n f := fun h =>
      h.mono (by rw [hitems]) (by rw [hitems]) (fun hc => hclosed.trans hc)
        (by rw [hvalues, List.length_append]; exact Nat.le_add_right _ _)
        (fun e he => Or.inl (hstock ▸ he))
    rcases Nat.lt_succ_iff_lt_or_eq.1 hn with hn | rfl
    · rw [hfate]
      show s'.Justified n (if n = s.values.length then f else s.fate n)
      rw [if_neg (Nat.ne_of_lt hn)]
      exact hmono (hs.justified hn)
    · rw [hnew]
      exact hmono hjust

/-- A new value is stored, and the oldest one may be dropped for it. -/
theorem store {v : Value} (dropped : Option (Nat × Value)) {rest : List (Nat × Value)}
    (hstock : s.stock = dropped.toList ++ rest)
    (hdropped : dropped ≠ none → s.channel.buffer.overflow = .dropOldest ∧
      ∃ limit, s.channel.buffer.capacity = .bounded limit)
    (hvalues : s'.values = s.values ++ [v])
    (hfate : ∀ n, s'.fate n = if n = s.values.length then .stored
      else if dropped.map Prod.fst = some n then .lost (.evicted s.values.length) else s.fate n)
    (hstock' : s'.stock = rest ++ [(s.values.length, v)])
    (hbuffer : s'.channel.buffer =
      { s.channel.buffer with items := rest.map Prod.snd ++ [v] })
    (hclosed : s'.channel.closed = s.channel.closed) (hfired : s'.fired = s.fired) :
    s'.Stocked := by
  have hnew : s'.fate s.values.length = .stored := by rw [hfate, if_pos rfl]
  have hrest : ∀ {e}, e ∈ rest → e ∈ s.stock := fun he => hstock ▸ List.mem_append_right _ he
  -- the values that are kept are not the one that was dropped
  have hapart : ∀ {e}, e ∈ rest → ∀ {d}, dropped = some d → d.1 < e.1 := by
    rintro e he d rfl
    have hsorted := hs.sorted
    rw [hstock] at hsorted
    exact (List.pairwise_cons.1 hsorted).1 e he
  have hold : ∀ {n}, n < s.values.length → (∀ d, dropped = some d → d.1 ≠ n) →
      s'.fate n = s.fate n := fun {n} hn hd => by
    rw [hfate, if_neg (Nat.ne_of_lt hn), if_neg]
    intro h
    obtain ⟨d, hdn, rfl⟩ := Option.map_eq_some_iff.1 h
    exact hd d hdn rfl
  have hgone : ∀ {d}, dropped = some d → s'.fate d.1 = .lost (.evicted s.values.length) := by
    rintro d rfl
    rw [hfate, if_neg (Nat.ne_of_lt (hs.lt_of_stock (hstock ▸ List.mem_cons_self)))]
    exact if_pos rfl
  have hnot : ∀ {d}, dropped = some d → s.fate d.1 = .stored := by
    rintro d rfl
    exact (hs.stored.1 (show (d.1, d.2) ∈ s.stock from hstock ▸ List.mem_cons_self)).2
  have hfuture : ∀ {n u}, s'.values[n]? = some u ↔ s.values[n]? = some u ∨
      n = s.values.length ∧ u = v := by
    intro n u
    rw [hvalues, getElem?_concat_eq_some]
  have hkept : ∀ {n u id}, s.values[n]? = some u → s.fate n = .delivered id →
      s'.fate n = .delivered id := by
    intro n u id hn hid
    rw [hold (lt_of_getElem? hn), hid]
    rintro d hd rfl
    rw [hnot hd] at hid
    cases hid
  refine ⟨?_, ?_, ?_, ?_, ?_, ?_, ?_, ?_⟩
  · rw [hbuffer, hstock', List.map_append]
    rfl
  · intro n u
    rw [hstock', List.mem_append, List.mem_singleton, hfuture]
    constructor
    · rintro (he | he)
      · obtain ⟨h1, h2⟩ := hs.stored.1 (hrest he)
        refine ⟨Or.inl h1, (hold (lt_of_getElem? h1) fun d hd => ?_).trans h2⟩
        exact Nat.ne_of_lt (hapart he hd)
      · cases he
        exact ⟨Or.inr ⟨rfl, rfl⟩, hnew⟩
    · rintro ⟨h1 | ⟨rfl, rfl⟩, h2⟩
      · have hd : ∀ d, dropped = some d → d.1 ≠ n := by
          rintro d hd rfl
          rw [hgone hd] at h2
          cases h2
        have hin := hs.stored.2 ⟨h1, (hold (lt_of_getElem? h1) hd).symm.trans h2⟩
        rw [hstock] at hin
        refine Or.inl ((List.mem_append.1 hin).resolve_left fun hm => ?_)
        rw [Option.mem_toList] at hm
        exact hd _ hm rfl
      · exact Or.inr rfl
  · rw [hstock', List.pairwise_append]
    have hsorted := hs.sorted
    rw [hstock, List.pairwise_append] at hsorted
    refine ⟨hsorted.2.1, List.pairwise_singleton _ _, fun e he f hf => ?_⟩
    rw [List.mem_singleton.1 hf]
    exact hs.lt_of_stock (hrest he)
  · rw [hfired]
    intro f hf n u hu
    obtain ⟨h1, h2, h3⟩ := hs.served f hf hu
    exact ⟨h1, hfuture.2 (Or.inl h2), hkept h2 h3⟩
  · intro n u id hn hid
    rw [hfired]
    rcases hfuture.1 hn with hn | ⟨rfl, rfl⟩
    · refine hs.delivered hn ((hold (lt_of_getElem? hn) ?_).symm.trans hid)
      rintro d hd rfl
      rw [hgone hd] at hid
      cases hid
    · rw [hnew] at hid
      cases hid
  · rw [hfired]
    exact hs.fifo
  · rw [hfired, hstock']
    intro f hf m u hm e he hacc
    rcases List.mem_append.1 he with he | he
    · exact hs.ahead f hf hm e (hrest he) hacc
    · rw [List.mem_singleton.1 he]
      exact hs.lt_of_served hf hm
  · intro n hn
    rw [hvalues, List.length_append, List.length_singleton] at hn
    by_cases hnn : n = s.values.length
    · rw [hnn, hnew]
      trivial
    have hn : n < s.values.length := by omega
    by_cases hd : ∃ d, dropped = some d ∧ d.1 = n
    · obtain ⟨d, hd, rfl⟩ := hd
      rw [hgone hd]
      obtain ⟨ho, limit, hl⟩ := hdropped (by rw [hd]; simp)
      refine ⟨⟨by rw [hbuffer]; exact ho, limit, by rw [hbuffer]; exact hl⟩, hn, ?_, fun e he => ?_⟩
      · rw [hvalues, List.length_append]
        exact Nat.lt_succ_self _
      · rw [hstock'] at he
        rcases List.mem_append.1 he with he | he
        · exact hapart he hd
        · rw [List.mem_singleton.1 he]
          exact hn
    · rw [hold hn fun d hd' hdn => hd ⟨d, hd', hdn⟩]
      refine (hs.justified hn).mono (by rw [hbuffer]) (by rw [hbuffer]) (fun hc => hclosed.trans hc)
        (by rw [hvalues, List.length_append]; exact Nat.le_add_right _ _) fun e he => ?_
      rw [hstock'] at he
      rcases List.mem_append.1 he with he | he
      · exact Or.inl (hrest he)
      · rw [List.mem_singleton.1 he]
        exact Or.inr hn

/-- A new taker gets the first value of the stock that it accepts. -/
theorem serve {t : Taker κ} {pre post : List (Nat × Value)} {n : Nat} {v : Value}
    (hstock : s.stock = pre ++ (n, v) :: post) (hacc : t.pattern.accepts v = true)
    (hfirst : ∀ e ∈ pre, t.pattern.accepts e.2 = false) (hvalues : s'.values = s.values)
    (hfate : s'.fate = (s.mark n (.delivered t.id)).fate) (hstock' : s'.stock = pre ++ post)
    (hbuffer : s'.channel.buffer =
      { s.channel.buffer with items := (pre ++ post).map Prod.snd })
    (hclosed : s'.channel.closed = s.channel.closed)
    (hfired : s'.fired = s.fired ++ [⟨t, some (n, v)⟩]) : s'.Stocked := by
  have hin : (n, v) ∈ s.stock := hstock ▸ List.mem_append_right _ List.mem_cons_self
  obtain ⟨hn, hstored⟩ := hs.stored.1 hin
  have hnew : s'.fate n = .delivered t.id := by
    rw [hfate]
    exact if_pos rfl
  have hold : ∀ {m}, m ≠ n → s'.fate m = s.fate m := fun hm => by
    rw [hfate]
    exact if_neg hm
  have hsub : ∀ {e}, e ∈ pre ++ post → e ∈ s.stock := fun he => by
    rw [hstock, List.mem_append, List.mem_cons]
    exact (List.mem_append.1 he).imp_right Or.inr
  have hsorted := hs.sorted
  rw [hstock, List.pairwise_append, List.pairwise_cons] at hsorted
  obtain ⟨hpre, ⟨hafter, hpost⟩, hbefore⟩ := hsorted
  have hne : ∀ {e}, e ∈ pre ++ post → e.1 ≠ n := fun {e} he => by
    rcases List.mem_append.1 he with he | he
    · exact Nat.ne_of_lt (hbefore e he _ List.mem_cons_self)
    · exact (Nat.ne_of_lt (hafter e he)).symm
  have hserved : ∀ {f}, f ∈ s.fired → ∀ {m u}, f.value = some (m, u) → m ≠ n := by
    rintro f hf m u hm rfl
    rw [(hs.served f hf hm).2.2] at hstored
    cases hstored
  refine ⟨by rw [hbuffer, hstock'], ?_, ?_, ?_, ?_, ?_, ?_, ?_⟩
  · intro m u
    rw [hstock', hvalues]
    constructor
    · intro he
      obtain ⟨h1, h2⟩ := hs.stored.1 (hsub he)
      exact ⟨h1, (hold (hne he)).trans h2⟩
    · rintro ⟨h1, h2⟩
      have hm : m ≠ n := by
        rintro rfl
        rw [hnew] at h2
        cases h2
      have he := hs.stored.2 ⟨h1, (hold hm).symm.trans h2⟩
      rw [hstock, List.mem_append, List.mem_cons] at he
      refine List.mem_append.2 (he.imp_right fun he => he.resolve_left ?_)
      rintro ⟨⟩
      exact hm rfl
  · rw [hstock', List.pairwise_append]
    exact ⟨hpre, hpost, fun e he f hf => hbefore e he f (List.mem_cons_of_mem _ hf)⟩
  · rw [hfired, hvalues]
    intro f hf m u hm
    rcases List.mem_append.1 hf with hf | hf
    · obtain ⟨h1, h2, h3⟩ := hs.served f hf hm
      exact ⟨h1, h2, (hold (hserved hf hm)).trans h3⟩
    · rw [List.mem_singleton.1 hf] at hm ⊢
      cases hm
      exact ⟨hacc, hn, hnew⟩
  · rw [hfired, hvalues]
    intro m u id hm hid
    by_cases hmn : m = n
    · subst hmn
      rw [hnew] at hid
      cases hid
      rw [hn] at hm
      cases hm
      exact ⟨_, List.mem_append_right _ List.mem_cons_self, rfl, rfl⟩
    · obtain ⟨f, hf, h⟩ := hs.delivered hm ((hold hmn).symm.trans hid)
      exact ⟨f, List.mem_append_left _ hf, h⟩
  · rw [hfired, List.pairwise_append]
    refine ⟨hs.fifo, List.pairwise_singleton _ _, fun f hf g hg m u k w hm hk hf' => ?_⟩
    rw [List.mem_singleton.1 hg] at hk
    cases hk
    exact hs.ahead f hf hm _ hin hf'
  · rw [hfired, hstock']
    intro f hf m u hm e he hacc'
    rcases List.mem_append.1 hf with hf | hf
    · exact hs.ahead f hf hm e (hsub he) hacc'
    · rw [List.mem_singleton.1 hf] at hm hacc'
      cases hm
      rcases List.mem_append.1 he with he | he
      · rw [hfirst e he] at hacc'
        cases hacc'
      · exact hafter e he
  · intro m hm
    rw [hvalues] at hm
    by_cases hmn : m = n
    · rw [hmn, hnew]
      trivial
    · rw [hold hmn]
      exact (hs.justified hm).mono (by rw [hbuffer]) (by rw [hbuffer]) (fun hc => hclosed.trans hc)
        (Nat.le_of_eq (by rw [hvalues])) fun e he => Or.inl (hsub (hstock' ▸ he))

/-- Only takers come in, change their places, or are told of the end. -/
theorem told (hvalues : s'.values = s.values) (hfate : s'.fate = s.fate)
    (hstock : s'.stock = s.stock) (hbuffer : s'.channel.buffer = s.channel.buffer)
    (hclosed : s.channel.closed = true → s'.channel.closed = true)
    (hfired : s'.fired = s.fired ∨ ∃ t, s'.fired = s.fired ++ [⟨t, none⟩]) : s'.Stocked := by
  have hmem : ∀ {f}, f ∈ s'.fired → f ∈ s.fired ∨ f.value = none := fun {f} hf => by
    rcases hfired with hfired | ⟨t, hfired⟩
    · exact Or.inl (hfired ▸ hf)
    · rw [hfired] at hf
      refine (List.mem_append.1 hf).imp_right fun hf => ?_
      rw [List.mem_singleton.1 hf]
  have hsome : ∀ {f}, f ∈ s'.fired → ∀ {e}, f.value = some e → f ∈ s.fired := fun hf _ he =>
    (hmem hf).resolve_right fun hn => by rw [hn] at he; cases he
  refine ⟨by rw [hbuffer, hstock, hs.items], fun {n v} => ?_, hstock ▸ hs.sorted,
    fun f hf n v hv => ?_, fun {n v id} hn hid => ?_, ?_, fun f hf m u hm e he => ?_, fun {n} hn => ?_⟩
  · rw [hstock, hvalues, hfate]
    exact hs.stored
  · rw [hvalues, hfate]
    exact hs.served f (hsome hf hv) hv
  · rw [hvalues] at hn
    rw [hfate] at hid
    obtain ⟨f, hf, h⟩ := hs.delivered hn hid
    refine ⟨f, ?_, h⟩
    rcases hfired with hfired | ⟨t, hfired⟩ <;> rw [hfired]
    · exact hf
    · exact List.mem_append_left _ hf
  · rcases hfired with hfired | ⟨t, hfired⟩ <;> rw [hfired]
    · exact hs.fifo
    · rw [List.pairwise_append]
      refine ⟨hs.fifo, List.pairwise_singleton _ _, fun f _ g hg m u n v _ hn _ => ?_⟩
      rw [List.mem_singleton.1 hg] at hn
      cases hn
  · exact hs.ahead f (hsome hf hm) hm e (hstock ▸ he)
  · rw [hvalues] at hn
    rw [hfate]
    exact (hs.justified hn).mono (by rw [hbuffer]) (by rw [hbuffer]) hclosed
      (Nat.le_of_eq (by rw [hvalues])) fun e he => Or.inl (hstock ▸ he)

end Stocked

/-- Whoever was withdrawn stays so. -/
theorem Becomes.withdrawn (h : s.Becomes s') {id : TakerId} (hid : id ∈ s.withdrawn) :
    id ∈ s'.withdrawn := by
  cases h with
  | withdraws => exact List.mem_append_left _ hid
  | _ => exact hid

theorem Queued.nodup (hq : s.Queued) : s.places.Nodup := by
  have : (s.registered.map Taker.id).Nodup := by
    rw [hq.numbered]
    exact List.nodup_range'
  exact hq.once.nodup_iff.2 this

end Ledger

end SagaMachine
