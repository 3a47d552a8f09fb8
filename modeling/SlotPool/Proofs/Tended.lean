import SlotPool.Proofs.Runs
import SlotPool.Proofs.Vetted

/-!
# Free slots are pristine

In a reachable world every slot on the free stack of a pool, and every slot that a call of the pool
has taken or made, is from that pool and has the value that the pool's strategy calls pristine. So
has every slot that a call hands to its caller, whatever was written to it before.
-/

namespace SlotPool

open Memory

variable {ε : Type} {there : PoolId → Prop}

structure Arena.Tended (a : Arena ε) : Prop where
  laid : a.memory.Laid
  /-- A slot has as many elements as the strategy of its pool says. -/
  sized : ∀ s cell, a.memory.cell? s = some cell →
    ∃ p, a.pool? cell.owner = some p ∧ cell.run.length = p.strategy.shape.width
  free : ∀ id p, a.pool? id = some p → ∀ s ∈ p.free.slots a.memory, Clean a.memory id p.strategy s

structure Client.Tended (a : Arena ε) (k : Client) : Prop where
  held : ∀ h ∈ k.held, h.Vetted a.memory
  call : ∀ id c p, k.call = some (id, c) → a.pool? id = some p →
    ∀ s ∈ slotsOf a.memory c.vetted, Clean a.memory id p.strategy s

/-! ## What is left alone -/

theorem Held.Vetted.keeps {m m' : Memory ε} {touched : List Slot} {h : Held} (hv : h.Vetted m)
    (hkeep : Keeps m m' touched) (hsame : h.slots m' = h.slots m)
    (hlt : ∀ s ∈ h.slots m, s.index < m.size) : h.Vetted m' := by
  intro hb s hs
  rw [hsame] at hs
  rw [hkeep.owner? s (hlt s hs)]
  exact hv hb s hs

theorem Arena.sized_keeps {a a' : Arena ε} {touched : List Slot} (ht : a.Tended)
    (hpools : a.SamePools a') (hkeep : Keeps a.memory a'.memory touched)
    (hnew : ∀ s cell, a'.memory.cell? s = some cell → ¬ s.index < a.memory.size →
      ∃ p, a.pool? cell.owner = some p ∧ cell.run.length = p.strategy.shape.width)
    (s : Slot) (cell : Cell) (hcell : a'.memory.cell? s = some cell) :
    ∃ p, a'.pool? cell.owner = some p ∧ cell.run.length = p.strategy.shape.width := by
  have hold : ∃ p, a.pool? cell.owner = some p ∧ cell.run.length = p.strategy.shape.width := by
    by_cases hs : s.index < a.memory.size
    · obtain ⟨c, hc⟩ := exists_cell? hs
      obtain ⟨c', hc', hrun, howner⟩ := hkeep.cell s c hc
      obtain rfl : c' = cell := Option.some.inj (hc'.symm.trans hcell)
      rw [hrun, howner]
      exact ht.sized s c hc
    · exact hnew s cell hcell hs
  obtain ⟨p, hp, hwidth⟩ := hold
  obtain ⟨p', hp', hstrategy⟩ := hpools _ p hp
  exact ⟨p', hp', by rw [hstrategy, hwidth]⟩

theorem Client.Tended.keeps {a a' : Arena ε} {k : Client} {touched : List Slot}
    (ht : k.Tended a) (hk : k.Known a) (hpools : a.SamePools a')
    (hkeep : Keeps a.memory a'.memory touched)
    (hsame : ∀ p ∈ k.pieces, p.slots a'.memory = p.slots a.memory)
    (hapart : ∀ s ∈ slotsOf a.memory k.pieces, s.index < a.memory.size ∧ s ∉ touched) :
    k.Tended a' := by
  constructor
  · intro h hh
    have hsub : h.pieces ⊆ k.pieces := fun p hp =>
      List.mem_append_left _ (List.mem_flatMap.2 ⟨h, hh, hp⟩)
    refine (ht.held h hh).keeps hkeep (slotsOf_congr fun p hp => hsame p (hsub hp)) ?_
    intro s hs
    exact (hapart s (mem_slotsOf_of_subset hsub hs)).1
  · intro id c p' hc hp' s hs
    obtain ⟨p, hp⟩ := hk.call id c hc
    obtain ⟨p'', hp'', hstrategy⟩ := hpools id p hp
    obtain rfl : p'' = p' := Option.some.inj (hp''.symm.trans hp')
    have hsub : c.vetted ⊆ k.pieces := by
      intro q hq
      apply List.mem_append_right
      rw [running, hc]
      exact Call.vetted_subset c hq
    rw [slotsOf_congr fun q hq => hsame q (hsub hq)] at hs
    rw [hstrategy]
    exact (ht.call id c p hc hp s hs).keeps hkeep
      (hapart s (mem_slotsOf_of_subset hsub hs)).2

/-! ## One step of a call -/

theorem Arena.step_tended {a a' : Arena ε} {id : PoolId} {p : Pool ε} {granted : Bool}
    {c c' : Call} {frame : List Piece} (ht : a.Tended) (hp : a.pool? id = some p)
    (h : a.step id granted c = (a', c'))
    (hpart : Partition a.memory ((a.free ++ c.pieces) ++ frame))
    (hclean : ∀ s ∈ slotsOf a.memory c.vetted, Clean a.memory id p.strategy s) :
    a'.Tended ∧ ∀ p', a'.pool? id = some p' →
      ∀ s ∈ slotsOf a'.memory c'.vetted, Clean a'.memory id p'.strategy s := by
  obtain ⟨p', e, hstep, hpools⟩ := step_eq hp h
  obtain ⟨others, hfree, -, hothers⟩ := free_perm hp
  have hlocal := local_partition hfree hpart
  obtain ⟨-, hsame⟩ := Call.step_shifts id granted hstep _ hlocal
  have hkeep := Call.step_keeps hstep ht.laid
  have hstrategy := Call.step_strategy id granted hstep
  have hset := pool?_set hp hpools
  have hwidth : ∀ s cell, a.memory.cell? s = some cell → cell.owner = id →
      cell.run.length = p.strategy.shape.width := by
    intro s cell hcell howner
    obtain ⟨q, hq, hlength⟩ := ht.sized s cell hcell
    obtain rfl : p = q := Option.some.inj (hp.symm.trans (howner ▸ hq))
    exact hlength
  have hclean' := Call.step_clean hstep hlocal ht.laid hwidth (by
    intro s hs
    rw [slotsOf_cons, List.mem_append] at hs
    exact hs.elim (ht.free id p hp s) (hclean s))
  rw [← hstrategy] at hclean'
  simp only [slotsOf_cons, List.mem_append] at hclean'
  refine ⟨⟨hkeep.laid, ?_, ?_⟩, ?_⟩
  · apply sized_keeps ht (samePools_set hp hpools hstrategy) hkeep
    intro s cell hcell hs
    obtain ⟨howner, hlength⟩ := Call.step_new_cell hstep hcell hs
    exact ⟨p, howner ▸ hp, hlength⟩
  · intro other q hq s hs
    rw [hset other] at hq
    split at hq
    · rename_i he
      obtain rfl : p' = q := Option.some.inj hq
      rw [he]
      exact hclean' s (Or.inl hs)
    · rename_i hne
      have hmem : .chain q.free ∈ others ++ frame :=
        List.mem_append_left _ ((hothers _).2 ⟨other, q, hne, hq, rfl⟩)
      rw [← Piece.slots_chain, hsame _ hmem] at hs
      apply (ht.free other q hq s hs).keeps hkeep
      intro htouched
      refine hlocal.disjoint ?_ (List.mem_flatMap.2 ⟨.chain q.free, hmem, hs⟩)
      rw [slotsOf_cons]
      exact List.mem_append_right _ htouched
  · intro q hq s hs
    rw [hset id, if_pos rfl] at hq
    obtain rfl : p' = q := Option.some.inj hq
    exact hclean' s (Or.inr hs)

/-! ## One step of a client -/

theorem Arena.move_tended {a : Arena ε} {m : Memory ε} {before after : List Held}
    {frame : List Piece} (ht : a.Tended) (h : Moves there a.memory before m after)
    (hpart : Partition a.memory (before.flatMap Held.pieces ++ (a.free ++ frame))) :
    Tended { a with memory := m } := by
  have hkeep := moves_keeps h ht.laid
  obtain ⟨-, hsame⟩ := moves_shifts h _ hpart
  refine ⟨hkeep.laid, ?_, ?_⟩
  · refine sized_keeps ht (fun id p hp => ⟨p, hp, rfl⟩) hkeep ?_
    intro s cell hcell hs
    have hlt := lt_size_of_cell? hcell
    rw [moves_size h] at hlt
    exact absurd hlt hs
  · intro id p hp s hs
    have hmem : .chain p.free ∈ a.free ++ frame := by
      refine List.mem_append_left _ (List.mem_map.2 ⟨p, ?_, rfl⟩)
      exact Array.mem_toList_iff.2 (Array.mem_of_getElem? hp)
    rw [← Piece.slots_chain, hsame _ hmem] at hs
    exact (ht.free id p hp s hs).keeps hkeep fun htouched =>
      hpart.disjoint htouched (List.mem_flatMap.2 ⟨.chain p.free, hmem, hs⟩)

namespace Client

theorem step_keeps {a a' : Arena ε} {k k' : Client} {new : Losses} (ht : a.Tended)
    (hk : k.Known a) (h : Step a k a' k' new) :
    Keeps a.memory a'.memory (slotsOf a.memory k.pieces) := by
  cases h with
  | run a' held id granted c c' hc hr =>
    obtain ⟨p, hp⟩ := hk.call id c rfl
    obtain ⟨p', e, hstep, -⟩ := Arena.step_eq hp hr
    exact (Call.step_keeps hstep ht.laid).mono fun s hs => by
      rw [pieces, slotsOf_append]
      exact List.mem_append_right _ hs
  | move held before after rest m hh hm =>
    apply (moves_keeps hm ht.laid).mono
    intro s hs
    have hsub : before.flatMap Held.pieces ⊆ pieces ⟨held, none⟩ := by
      intro piece hpiece
      obtain ⟨h, hmem, hpiece⟩ := List.mem_flatMap.1 hpiece
      refine List.mem_append_left _ (List.mem_flatMap.2 ⟨h, ?_, hpiece⟩)
      exact hh.mem_iff.2 (List.mem_append_left _ hmem)
    exact mem_slotsOf_of_subset hsub hs
  | _ => exact Keeps.refl ht.laid _

theorem tended_idle {a : Arena ε} {held : List Held} (h : ∀ h ∈ held, h.Vetted a.memory) :
    Tended a ⟨held, none⟩ :=
  ⟨h, by simp⟩

theorem tended_giving {a : Arena ε} {held : List Held} {id : PoolId} {c : Call}
    (h : ∀ h ∈ held, h.Vetted a.memory) (hc : c.vetted = []) : Tended a ⟨held, some (id, c)⟩ := by
  refine ⟨h, fun id' c' p he hp s hs => ?_⟩
  obtain ⟨rfl, rfl⟩ : id = id' ∧ c = c' := by simpa using he
  simp [hc] at hs

theorem vetted_of_givenBy {h : Held} {c : Call} (hg : h.GivenBy c) : c.vetted = [] := by
  cases hg <;> rfl

theorem emptied_vetted (m : Memory ε) (h : Held) : h.emptied.Vetted m := by
  intro hb s hs
  cases h with
  | slot t => simp [Held.emptied, Held.isBare] at hb
  | stack st => simp [Held.emptied, Held.isBare] at hb
  | lease l => simp [Held.emptied, Held.slots, Held.pieces, Lease.detach] at hs
  | leaseStack l =>
    have hempty : Stack.slots m {} = [] := (Stack.spans_empty m).slots_eq
    simp [Held.emptied, Held.slots, Held.pieces, LeaseStack.detach, hempty] at hs

theorem held_keeps {m m' : Memory ε} {held : List Held} {touched : List Slot}
    (hv : ∀ h ∈ held, h.Vetted m) (hkeep : Keeps m m' touched)
    (hsame : ∀ p ∈ held.flatMap Held.pieces, p.slots m' = p.slots m)
    (hlt : ∀ s ∈ slotsOf m (held.flatMap Held.pieces), s.index < m.size) :
    ∀ h ∈ held, h.Vetted m' := by
  intro h hh
  have hsub : h.pieces ⊆ held.flatMap Held.pieces := fun p hp => List.mem_flatMap.2 ⟨h, hh, hp⟩
  refine (hv h hh).keeps hkeep (slotsOf_congr fun p hp => hsame p (hsub hp)) ?_
  exact fun s hs => hlt s (mem_slotsOf_of_subset hsub hs)

theorem step_tended {a a' : Arena ε} {k k' : Client} {new : Losses} {frame : List Piece}
    (ht : a.Tended) (hkt : k.Tended a) (hk : k.Known a)
    (hpart : Partition a.memory ((a.free ++ k.pieces) ++ frame)) (h : Step a k a' k' new) :
    a'.Tended ∧ k'.Tended a' := by
  have hheld := hkt.held
  cases h with
  | ask held id p c hp hc => exact ⟨ht, tended_giving hheld (by cases hc <;> rfl)⟩
  | give held rest h kind id p c hh hp hc =>
    have hrest := (forall_of_perm hh hheld).2
    exact ⟨ht, tended_giving hrest (vetted_of_givenBy (givenBy_of_returning hc))⟩
  | drop held rest h id p c hh hp hd =>
    have hrest := (forall_of_perm hh hheld).2
    exact ⟨ht, tended_giving hrest (vetted_of_givenBy (givenBy_of_dropped hd).1)⟩
  | reset held rest h id p c hh hp hd =>
    have hrest := (forall_of_perm hh hheld).2
    refine ⟨ht, tended_giving ?_ (vetted_of_givenBy (givenBy_of_dropped hd).1)⟩
    exact List.forall_mem_cons.2 ⟨emptied_vetted a.memory h, hrest⟩
  | leak held rest h hh hb => exact ⟨ht, tended_idle (forall_of_perm hh hheld).2⟩
  | expire held rest h hh hb hd => exact ⟨ht, tended_idle (forall_of_perm hh hheld).2⟩
  | move held before after rest m hh hm =>
    have hpart' := move_partition hpart hh
    have hrest : ∀ h ∈ rest, h.Vetted a.memory := fun h hm => hheld h (hh.mem_iff.2 (by simp [hm]))
    have hbefore : ∀ h ∈ before, h.Vetted a.memory :=
      fun h hm => hheld h (hh.mem_iff.2 (by simp [hm]))
    refine ⟨Arena.move_tended ht hm hpart', tended_idle fun h hmem => ?_⟩
    rcases List.mem_append.1 hmem with hmem | hmem
    · exact moves_vetted hm hpart' ht.laid hbefore h hmem
    · refine held_keeps hrest (moves_keeps hm ht.laid) (fun q hq => ?_) (fun s hs => ?_) h hmem
      · exact (moves_shifts hm _ hpart').2 q (by simp [hq])
      · exact hpart'.lt_size s (by simp only [slotsOf_append, List.mem_append]; tauto)
  | run a' held id granted c c' hc hr =>
    obtain ⟨p, hp⟩ := hk.call id c rfl
    have hpart' := call_partition hpart
    obtain ⟨harena, hcall⟩ := Arena.step_tended ht hp hr hpart' (hkt.call id c p rfl hp)
    obtain ⟨p', e, hstep, -⟩ := Arena.step_eq hp hr
    refine ⟨harena, ?_, fun id' c₁ q he hq => ?_⟩
    · refine held_keeps hheld (Call.step_keeps hstep ht.laid) (fun q hq => ?_) fun s hs => ?_
      · exact (Arena.step_shifts hp hr _ hpart').2 q (by simp [hq])
      · exact hpart'.lt_size s (by simp only [slotsOf_append, List.mem_append]; tauto)
    · obtain ⟨rfl, rfl⟩ : id = id' ∧ c' = c₁ := by simpa using he
      exact hcall q hq
  | receive held id slots leased h hh =>
    obtain ⟨hpieces, hpool⟩ := heldOf_ok hh
    obtain ⟨p, hp⟩ := hk.call id _ rfl
    refine ⟨ht, tended_idle (List.forall_mem_cons.2 ⟨fun hb s hs => ?_, hheld⟩)⟩
    rw [Held.slots, hpieces] at hs
    rw [hpool hb]
    exact (hkt.call id _ p rfl hp s hs).owner
  | reject held id slots leased v hh => exact ⟨ht, tended_idle hheld⟩
  | finish held id o ho => exact ⟨ht, tended_idle hheld⟩

end Client

/-! ## Worlds -/

theorem Arena.addPool_tended {a : Arena ε} (ht : a.Tended) (strategy : Strategy ε)
    (policy : GrowthPolicy) (backoffMicros : Nat) :
    (a.addPool (.fresh strategy policy backoffMicros)).Tended := by
  refine ⟨ht.laid, ?_, ?_⟩
  · intro s cell hcell
    obtain ⟨p, hp, hwidth⟩ := ht.sized s cell hcell
    exact ⟨p, pool?_addPool hp _, hwidth⟩
  · intro id p hp s hs
    rcases of_pool?_addPool hp with hp | rfl
    · exact ht.free id p hp s hs
    · have hempty : Stack.slots a.memory {} = [] := (Stack.spans_empty a.memory).slots_eq
      have hmem : s ∈ Stack.slots a.memory {} := hs
      simp [hempty] at hmem

namespace World

structure Tended (w : World ε) : Prop where
  arena : w.arena.Tended
  clients : ∀ k ∈ w.clients, k.Tended w.arena

theorem tended_start : Tended ({} : World ε) :=
  ⟨⟨laid_empty, by simp [cell?], by simp [Arena.pool?]⟩, by simp⟩

theorem Tended.step {w w' : World ε} (ht : w.Tended) (hw : w.Whole) (hs : w.Step w') :
    w'.Tended := by
  cases hs with
  | client a a' clients rest k k' losses new hc hk =>
    have hclients : ∀ k₁ ∈ k :: rest, k₁.Tended a ∧ k₁.Known a := fun k₁ hm =>
      ⟨ht.clients k₁ (hc.mem_iff.2 hm), hw.known k₁ (hc.mem_iff.2 hm)⟩
    obtain ⟨htended, hknown⟩ := hclients k (by simp)
    have hpart : Partition a.memory _ := hw.partition.of_perm (pieces_perm hc)
    obtain ⟨harena, hk'⟩ := Client.step_tended ht.arena htended hknown hpart hk
    refine ⟨harena, List.forall_mem_cons.2 ⟨hk', fun k₁ hm => ?_⟩⟩
    obtain ⟨htended₁, hknown₁⟩ := hclients k₁ (by simp [hm])
    have hsub : k₁.pieces ⊆ rest.flatMap Client.pieces ++ losses.pieces := fun q hq =>
      List.mem_append_left _ (List.mem_flatMap.2 ⟨k₁, hm, hq⟩)
    refine htended₁.keeps hknown₁ (Client.step_samePools hknown hk)
      (Client.step_keeps ht.arena hknown hk) (fun q hq => (hw.client hc hk).2 q (hsub hq)) ?_
    intro s hs
    have hmem := mem_slotsOf_of_subset hsub hs
    refine ⟨hpart.lt_size s (by rw [slotsOf_append]; exact List.mem_append_right _ hmem), ?_⟩
    refine fun htouched => hpart.disjoint ?_ hmem
    rw [slotsOf_append]
    exact List.mem_append_right _ htouched
  | addPool a clients losses strategy policy backoffMicros =>
    refine ⟨Arena.addPool_tended ht.arena strategy policy backoffMicros, fun k hm => ?_⟩
    have hknown : k.Known a := hw.known k hm
    have htended : k.Tended a := ht.clients k hm
    refine ⟨htended.held, fun id c p hc hp => ?_⟩
    obtain ⟨q, hq⟩ := hknown.call id c hc
    obtain rfl : q = p := Option.some.inj ((Arena.pool?_addPool hq _).symm.trans hp)
    exact htended.call id c q hc hq
  | join a clients losses =>
    exact ⟨ht.arena, List.forall_mem_cons.2 ⟨⟨by simp, by simp⟩, ht.clients⟩⟩
  | handOver a clients rest giver taker kept h losses hc hh =>
    obtain ⟨hgiver, hmore⟩ := forall_of_perm hc ht.clients
    obtain ⟨htaker, hrest⟩ := List.forall_mem_cons.1 hmore
    obtain ⟨hh', hkept⟩ := forall_of_perm hh hgiver.held
    refine ⟨ht.arena, List.forall_mem_cons.2 ⟨⟨hkept, hgiver.call⟩, ?_⟩⟩
    exact List.forall_mem_cons.2 ⟨⟨List.forall_mem_cons.2 ⟨hh', htaker.held⟩, htaker.call⟩, hrest⟩

theorem tended_of_reachable {w : World ε} (h : w.Reachable) : w.Tended := by
  induction h with
  | start => exact tended_start
  | step hr hs ih => exact ih.step (whole_of_reachable hr) hs

end World

/-! ## Values of free slots -/

/-- The value of a new slot: a new object, or a buffer of as many new elements as it has. -/
def Strategy.Pristine (strategy : Strategy ε) (v : Array ε) : Prop :=
  match strategy.shape with
  | .object => v = #[strategy.pristine]
  | .buffer size => v.size = size ∧ ∀ e ∈ v, e = strategy.pristine

theorem Clean.pristine {m : Memory ε} {id : PoolId} {strategy : Strategy ε} {s : Slot}
    (h : Clean m id strategy s) : strategy.Pristine (m.value s) := by
  rw [h.value]
  unfold Strategy.Pristine Shape.width
  cases strategy.shape with
  | object => rfl
  | buffer size => simp

/-- Free slots are pristine, those in the hands of calls too, and so is what clients get. -/
theorem World.slots_pristine {w : World ε} (h : w.Reachable) (id : PoolId) (p : Pool ε)
    (hp : w.arena.pool? id = some p) :
    (∀ s ∈ p.free.slots w.memory, p.strategy.Pristine (w.memory.value s)) ∧
      (∀ k ∈ w.clients, ∀ c, k.call = some (id, c) →
        ∀ s ∈ slotsOf w.memory c.vetted, p.strategy.Pristine (w.memory.value s)) ∧
      ∀ k ∈ w.clients, ∀ slots, k.call = some (id, .finished (.acquired slots)) →
        ∀ leased got, Session.heldOf w.memory id leased slots = .ok got →
          ∀ s ∈ got.slots w.memory, p.strategy.Pristine (w.memory.value s) := by
  have ht := tended_of_reachable h
  refine ⟨fun s hs => (ht.arena.free id p hp s hs).pristine, ?_, ?_⟩
  · intro k hk c hc s hs
    exact ((ht.clients k hk).call id c p hc hp s hs).pristine
  · intro k hk slots hc leased got hgot s hs
    rw [Held.slots, (heldOf_ok hgot).1] at hs
    exact ((ht.clients k hk).call id _ p hc hp s hs).pristine

theorem World.slots_pristine_growing :
    ∃ p, growing.Reachable ∧ growing.arena.pool? ⟨0⟩ = some p ∧
      ∃ k ∈ growing.clients, ∃ c, k.call = some (⟨0⟩, c) ∧
        slotsOf growing.memory c.vetted = [⟨5⟩, ⟨4⟩, ⟨3⟩, ⟨2⟩, ⟨0⟩] ∧
        ∀ s ∈ slotsOf growing.memory c.vetted, p.strategy.Pristine (growing.memory.value s) := by
  have hpool : (growing.arena.pool? ⟨0⟩).isSome = true := by decide +kernel
  obtain ⟨p, hp⟩ := Option.isSome_iff_exists.1 hpool
  obtain ⟨-, hcalls, -⟩ := slots_pristine growing_reachable ⟨0⟩ p hp
  refine ⟨p, growing_reachable, hp, _, List.mem_cons_self, grown.2.call, rfl, ?_, ?_⟩
  · decide +kernel
  · exact hcalls _ List.mem_cons_self grown.2.call rfl

end SlotPool
