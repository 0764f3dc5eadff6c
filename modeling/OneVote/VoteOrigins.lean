-- SUMMARY: Where the votes and the blocks of a processing thread come from, step by step.
import OneVote.Voters

/-!
# Origins

A step takes at most one block or one transaction from the queues. What it
stores, pushes and broadcasts is what it took or what the thread had already.
-/

namespace OneVote

/-- The transaction that the step took from `tq`. -/
def Input.taken : Input → List Transaction
  | .transaction t => [t]
  | _ => []

/-- The block that the step took from `bq`. -/
def Input.received : Input → List Block
  | .block (some b) _ => [b]
  | _ => []

theorem Input.mem_received {i : Input} {b : Block} :
    b ∈ i.received ↔ ∃ env, i = .block (some b) env := by
  cases i with
  | block b? env => cases b? <;> simp [Input.received, eq_comm]
  | transaction t => simp [Input.received]
  | mine => simp [Input.received]

theorem Input.mem_taken {i : Input} {t : Transaction} : t ∈ i.taken ↔ i = .transaction t := by
  cases i <;> simp [Input.taken, eq_comm]

/-- The blocks that the step mined. -/
def Input.minedWith (i : Input) (effects : List Effect) : List Block :=
  match i with
  | .mine => effects.filterMap fun
      | .broadcastBlock b => some b
      | _ => none
  | _ => []

namespace Block

@[simp] theorem votes_numbered (b : Block) (n : Nat) :
    (Blockchain.numbered b n).votes = b.votes := rfl

theorem mem_of_requeued {b : Block} {t : Transaction} (h : t ∈ b.requeued) : t ∈ b.votes :=
  List.mem_of_mem_take h

end Block

namespace Thread

variable {SHA1 : Bytes → Digest} {th th' : Thread} {i : Input} {effects : List Effect}

/-- The working block keeps its votes, or takes one, or starts over. -/
theorem Change.votes_cases (hs : Change SHA1 th (i, effects) th') (hw : th.WellFormed) :
    th'.newBlock.votes = th.newBlock.votes ∨
      (∃ t, i = .transaction t ∧ th'.newBlock.votes = th.newBlock.votes ++ [t]) ∨
      th'.newBlock.votes = [] := by
  cases hs with
  | accepted => exact .inr (.inr rfl)
  | repaired => exact .inr (.inr rfl)
  | mined => exact .inr (.inr rfl)
  | @taken t ts b _ _ hts hmem hset =>
      cases hts.symm.trans hw.filling.entries
      obtain ⟨-, hvotes, -⟩ := hw.filling.setEntry hmem hset
      exact .inr (.inl ⟨t, rfl, hvotes⟩)
  | _ => exact .inl rfl

/-- A new block of the chain was received, or it was mined of the votes of the
working block. -/
theorem Change.mem_chain (hs : Change SHA1 th (i, effects) th') (hne : th.bc.blocks ≠ [])
    {c : Block} (hc : c ∈ th'.bc.nonGenesis) :
    c ∈ th.bc.nonGenesis ∨ (∃ b ∈ i.received, ∃ n, c = Blockchain.numbered b n) ∨
      c ∈ i.minedWith effects ∧ c.votes = th.newBlock.votes := by
  cases hs with
  | @accepted b env ts =>
      rw [Blockchain.nonGenesis_appended hne] at hc
      rcases List.mem_cons.1 hc with rfl | hc
      · exact .inr (.inl ⟨b, List.mem_singleton_self b, _, rfl⟩)
      · exact .inl hc
  | repaired =>
      rw [Blockchain.nonGenesis_truncated] at hc
      exact .inl (List.mem_of_mem_drop hc)
  | @mined w head _ hloop =>
      rw [Blockchain.nonGenesis_appended hne] at hc
      rcases List.mem_cons.1 hc with rfl | hc
      · obtain ⟨⟨magic, root, fin, rfl⟩, -⟩ := mineLoop_spec hloop
        exact .inr (.inr ⟨List.mem_singleton_self _, rfl⟩)
      · exact .inl hc
  | _ => exact .inl hc

/-- The votes of the chain from the oldest on, and those of the working block. -/
def recorded (th : Thread) : List Transaction :=
  th.bc.nonGenesis.reverse.flatMap (·.votes) ++ th.newBlock.votes

theorem mem_recorded {t : Transaction} :
    t ∈ th.recorded ↔ (∃ c ∈ th.bc.nonGenesis, t ∈ c.votes) ∨ t ∈ th.newBlock.votes := by
  simp only [recorded, List.mem_append, List.mem_flatMap, List.mem_reverse]

theorem mem_voters_recorded {k : Bytes} : k ∈ th.recorded.map (·.senderPublicKey) ↔
    (∃ c ∈ th.bc.nonGenesis, k ∈ c.senders) ∨ k ∈ th.newBlock.senders := by
  simp only [recorded, Block.senders, List.map_append, List.mem_append, List.map_flatMap,
    List.mem_flatMap, List.mem_reverse]

/-- Where what the thread stores comes from: its votes are among `ts`, and a block
of the chain is one of `bs`, or one of `ms` with votes among `ts` only. -/
structure Stores (th : Thread) (ts : List Transaction) (bs ms : List Block) : Prop where
  votes : ∀ t ∈ th.newBlock.votes, t ∈ ts
  chain : ∀ c ∈ th.bc.nonGenesis,
    (∃ b ∈ bs, ∃ k, c = Blockchain.numbered b k) ∨ c ∈ ms ∧ ∀ t ∈ c.votes, t ∈ ts

theorem initial_stores (tail : GenesisTail) : (initial tail).Stores [] [] [] where
  votes := by
    intro t ht
    cases ht
  chain := by
    intro c hc
    cases hc

theorem Stores.mono {ts ts' : List Transaction} {bs bs' ms ms' : List Block}
    (h : th.Stores ts bs ms) (hts : ts ⊆ ts') (hbs : bs ⊆ bs') (hms : ms ⊆ ms') :
    th.Stores ts' bs' ms' where
  votes t ht := hts (h.votes t ht)
  chain c hc := by
    rcases h.chain c hc with ⟨b, hb, k, hk⟩ | ⟨hmined, hall⟩
    · exact .inl ⟨b, hbs hb, k, hk⟩
    · exact .inr ⟨hms hmined, fun t ht => hts (hall t ht)⟩

theorem Stores.change {ts : List Transaction} {bs ms : List Block} (h : th.Stores ts bs ms)
    (hc : th.Counted) (hs : Change SHA1 th (i, effects) th') :
    th'.Stores (ts ++ i.taken) (bs ++ i.received) (ms ++ i.minedWith effects) where
  votes t ht := by
    rcases hs.votes_cases hc.wellFormed with hsame | ⟨u, rfl, happend⟩ | hnil
    · exact List.mem_append_left _ (h.votes t (hsame ▸ ht))
    · rw [happend] at ht
      rcases List.mem_append.1 ht with ht | ht
      · exact List.mem_append_left _ (h.votes t ht)
      · exact List.mem_append_right _ ht
    · rw [hnil] at ht
      cases ht
  chain c hmem := by
    obtain ⟨tally, htally⟩ := hc.counts
    rcases hs.mem_chain htally.nonempty hmem with hold | ⟨b, hb, k, hk⟩ | ⟨hmined, hvotes⟩
    · exact (h.mono (List.subset_append_left _ _) (List.subset_append_left _ _)
        (List.subset_append_left _ _)).chain c hold
    · exact .inl ⟨b, List.mem_append_right _ hb, k, hk⟩
    · exact .inr ⟨List.mem_append_right _ hmined,
        fun t ht => List.mem_append_left _ (h.votes t (hvotes ▸ ht))⟩

/-- The number of a received block does not matter: `add_block` overwrites it. -/
theorem Stores.renumber {ts : List Transaction} {bs bs' ms : List Block} (h : th.Stores ts bs ms)
    (hbs : ∀ b ∈ bs, ∃ b' ∈ bs', ∃ number, b = { b' with blockNumber := number }) :
    th.Stores ts bs' ms where
  votes := h.votes
  chain c hc := by
    refine (h.chain c hc).imp_left ?_
    rintro ⟨b, hb, k, rfl⟩
    obtain ⟨b', hb', number, rfl⟩ := hbs b hb
    exact ⟨b', hb', k, rfl⟩

end Thread

end OneVote
