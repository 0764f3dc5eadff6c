-- SUMMARY: The working block of the processing thread: its first entries are assigned, its voters are distinct and new.
import OneVote.ProcessingThread

/-!
# Working block

What holds of the working block at every point of every run, whatever blocks
and transactions arrive.
-/

namespace OneVote

namespace Block

/-- Exactly the first `max_ind` entries are assigned, by distinct voters. -/
structure Filling (b : Block) : Prop where
  maxInd_eq : b.maxInd = b.votes.length
  entries_eq : b.transactionArray.toList =
    b.votes.map some ++ List.replicate (numTransactionsPerBlock - b.votes.length) none
  nodup : b.senders.Nodup

theorem Filling.length_le {b : Block} (h : b.Filling) :
    b.votes.length ≤ numTransactionsPerBlock := by
  have hlen := congrArg List.length h.entries_eq
  rw [length_transactionArray, List.length_append, List.length_map] at hlen
  omega

theorem new_filling : new.Filling where
  maxInd_eq := rfl
  entries_eq := rfl
  nodup := List.nodup_nil

theorem Filling.toNat_maxInd {b : Block} (h : b.Filling) : b.maxInd.toNat = b.votes.length := by
  rw [h.maxInd_eq, Int.toNat_natCast]

/-- Reading up to `max_ind` reads the votes. -/
theorem Filling.entries {b : Block} (h : b.Filling) : b.entries b.maxInd.toNat = .ok b.votes := by
  rw [entries_eq_ok, h.toNat_maxInd, h.entries_eq]
  refine ⟨rfl, ?_⟩
  rw [← List.length_map (f := some), List.take_left]

theorem Filling.populated {b : Block} (h : b.Filling) (hfull : b.maxInd = numTransactionsPerBlock) :
    b.Populated := by
  have hlen : b.votes.length = numTransactionsPerBlock := by
    have hmax := h.maxInd_eq
    omega
  rw [populated_iff]
  conv_lhs => rw [h.entries_eq]
  rw [hlen, Nat.sub_self, List.replicate_zero, List.append_nil]

/-- An entry is set in range, and nothing else changes. -/
theorem setEntry_eq_ok {b b' : Block} {i : Int} {t : Transaction} :
    b.setEntry i t = .ok b' ↔ 0 ≤ i ∧ i.toNat < numTransactionsPerBlock ∧
      ∃ arr, arr.toList = b.transactionArray.toList.set i.toNat (some t) ∧
        b' = { b with transactionArray := arr } := by
  unfold setEntry
  split
  · rename_i hi
    constructor
    · intro h
      cases h
      exact ⟨hi.1, hi.2, _, Vector.toList_set hi.2, rfl⟩
    · intro h
      rcases h with ⟨-, -, arr, harr, rfl⟩
      rw [← Vector.toList_set hi.2] at harr
      rw [Vector.toList_inj.1 harr]
  · rename_i hi
    constructor
    · intro h
      cases h
    · intro h
      rcases h with ⟨h₁, h₂, -⟩
      exact absurd ⟨h₁, h₂⟩ hi

theorem Filling.exists_setEntry {b : Block} (h : b.Filling)
    (hlt : b.votes.length < numTransactionsPerBlock) (t : Transaction) :
    ∃ b', b.setEntry b.maxInd t = .ok b' := by
  have hi : b.maxInd.toNat < numTransactionsPerBlock := by
    rw [h.toNat_maxInd]
    exact hlt
  refine ⟨_, setEntry_eq_ok.2 ⟨?_, hi, _, Vector.toList_set hi, rfl⟩⟩
  rw [h.maxInd_eq]
  exact Int.natCast_nonneg _

/-- Appending a new voter at `max_ind`. -/
theorem Filling.setEntry {b b' : Block} {t : Transaction} (h : b.Filling)
    (hnew : t.senderPublicKey ∉ b.senders) (hset : b.setEntry b.maxInd t = .ok b') :
    ({ b' with maxInd := b'.maxInd + 1 } : Block).Filling ∧ b'.votes = b.votes ++ [t] ∧
      b'.maxInd = b.maxInd ∧ b'.magic = b.magic := by
  obtain ⟨-, hlt, arr, harr, rfl⟩ := setEntry_eq_ok.1 hset
  rw [h.toNat_maxInd] at hlt harr
  have hentries : arr.toList = (b.votes ++ [t]).map some ++
      List.replicate (numTransactionsPerBlock - (b.votes ++ [t]).length) none := by
    obtain ⟨n, hn⟩ : ∃ n, numTransactionsPerBlock - b.votes.length = n + 1 :=
      ⟨numTransactionsPerBlock - b.votes.length - 1, by omega⟩
    have hn' : numTransactionsPerBlock - (b.votes ++ [t]).length = n := by
      rw [List.length_append, List.length_singleton]
      omega
    rw [harr, h.entries_eq, hn, hn', List.replicate_succ]
    simp
  have hvotes : arr.toList.filterMap id = b.votes ++ [t] := by
    rw [hentries]
    simp
  refine ⟨⟨?_, ?_, ?_⟩, hvotes, rfl, rfl⟩
  · change b.maxInd + 1 = ((arr.toList.filterMap id).length : Int)
    rw [hvotes, h.maxInd_eq]
    simp
  · change arr.toList = (arr.toList.filterMap id).map some ++
      List.replicate (numTransactionsPerBlock - (arr.toList.filterMap id).length) none
    rw [hvotes]
    exact hentries
  · change ((arr.toList.filterMap id).map (·.senderPublicKey)).Nodup
    rw [hvotes, List.map_append, List.nodup_append']
    refine ⟨h.nodup, by simp, ?_⟩
    simpa [List.disjoint_singleton, senders] using hnew

theorem Filling.senders_setEntry {b b' : Block} {t : Transaction} (h : b.Filling)
    (hnew : t.senderPublicKey ∉ b.senders) (hset : b.setEntry b.maxInd t = .ok b') :
    ({ b' with maxInd := b'.maxInd + 1 } : Block).senders = b.senders ++ [t.senderPublicKey] := by
  obtain ⟨-, hvotes, -⟩ := h.setEntry hnew hset
  change b'.votes.map (·.senderPublicKey) = b.votes.map (·.senderPublicKey) ++ _
  rw [hvotes, List.map_append]
  rfl

end Block

namespace Thread

structure WellFormed (th : Thread) : Prop where
  filling : th.newBlock.Filling
  fresh : ∀ k ∈ th.newBlock.senders, k ∉ th.bc.voted
  full_iff : th.quotafull = true ↔ th.newBlock.maxInd = numTransactionsPerBlock
  not_full : th.point = .pop → th.quotafull = false
  full : th.point = .mine → th.quotafull = true

/-- A thread that starts over with an empty working block. -/
theorem wellFormed_new (bc : Blockchain) {point : Point} (hpoint : point ≠ .mine) :
    (⟨bc, .new, false, point⟩ : Thread).WellFormed where
  filling := Block.new_filling
  fresh := by
    intro k hk
    cases hk
  full_iff := by
    change false = true ↔ (0 : Int) = (8 : Nat)
    decide
  not_full := fun _ => rfl
  full := fun h => absurd h hpoint

theorem initial_wellFormed (tail : GenesisTail) : (initial tail).WellFormed :=
  wellFormed_new (.new tail) (by decide)

theorem WellFormed.at_head {th : Thread} (h : th.WellFormed) :
    ({ th with point := .head } : Thread).WellFormed where
  filling := h.filling
  fresh := h.fresh
  full_iff := h.full_iff
  not_full := by
    intro hp
    cases hp
  full := by
    intro hp
    cases hp

theorem WellFormed.at_afterBlock {th : Thread} (h : th.WellFormed) :
    ({ th with point := th.afterBlock } : Thread).WellFormed where
  filling := h.filling
  fresh := h.fresh
  full_iff := h.full_iff
  not_full := by
    intro hp
    cases hq : th.quotafull with
    | false => rfl
    | true => simp [afterBlock, hq] at hp
  full := by
    intro hp
    cases hq : th.quotafull with
    | false => simp [afterBlock, hq] at hp
    | true => rfl

/-- A transaction of a new voter was appended. -/
theorem WellFormed.taken {th : Thread} {t : Transaction} {b : Block} (h : th.WellFormed)
    (hpoint : th.point = .pop) (hvoted : t.senderPublicKey ∉ th.bc.voted)
    (hnew : t.senderPublicKey ∉ th.newBlock.senders)
    (hset : th.newBlock.setEntry th.newBlock.maxInd t = .ok b) :
    ({ th with
      newBlock := { b with maxInd := b.maxInd + 1 }
      quotafull := th.quotafull || b.maxInd + 1 = (numTransactionsPerBlock : Int)
      point := if th.quotafull || b.maxInd + 1 = (numTransactionsPerBlock : Int) then .mine
        else .head } : Thread).WellFormed := by
  have hquota : th.quotafull = false := h.not_full hpoint
  obtain ⟨hfill, -⟩ := h.filling.setEntry hnew hset
  rw [hquota]
  refine ⟨hfill, ?_, ?_, ?_, ?_⟩
  · intro k hk
    rw [h.filling.senders_setEntry hnew hset, List.mem_append] at hk
    rcases hk with hk | hk
    · exact h.fresh k hk
    · obtain rfl : k = t.senderPublicKey := by simpa using hk
      exact hvoted
  · simp
  · by_cases hfull : b.maxInd + 1 = 8 <;> simp [hfull]
  · by_cases hfull : b.maxInd + 1 = 8 <;> simp [hfull]

theorem WellFormed.change {SHA1 : Bytes → Digest} {th th' : Thread} {i : Input × List Effect}
    (h : th.WellFormed) (hs : Change SHA1 th i th') : th'.WellFormed := by
  cases hs with
  | idle => exact h.at_afterBlock
  | ignored => exact h.at_head
  | accepted => exact wellFormed_new _ (by decide)
  | repaired => exact wellFormed_new _ (by decide)
  | discarded => exact h.at_head
  | taken hpoint hvoted hts hmem hset =>
      have hvotes := hts.symm.trans h.filling.entries
      cases hvotes
      exact h.taken hpoint hvoted hmem hset
  | missed => exact { h.at_head with
      filling := ⟨h.filling.maxInd_eq, h.filling.entries_eq, h.filling.nodup⟩ }
  | mined => exact wellFormed_new _ (by decide)

theorem wellFormed_invariant (SHA1 : Bytes → Digest) (tail : GenesisTail) :
    (processingThread SHA1 tail).Invariant WellFormed where
  init := by
    rintro th rfl
    exact initial_wellFormed tail
  step := fun _ _ _ hstep h => h.change hstep.change

/-- Mining works on a full block. -/
theorem WellFormed.populated {th : Thread} (h : th.WellFormed) (hpoint : th.point = .mine) :
    th.newBlock.Populated :=
  h.filling.populated (h.full_iff.1 (h.full hpoint))

/-- The block that a successful mining loop returns keeps the votes of the
working block, all eight of them. -/
theorem WellFormed.mineLoop {SHA1 : Bytes → Digest} {th : Thread} {w : Block} {found : Bool}
    (h : th.WellFormed) (hpoint : th.point = .mine)
    (hloop : mineLoop SHA1 numMagicToTry th.newBlock = .ok (w, found)) :
    w.Populated ∧ w.votes = th.newBlock.votes := by
  obtain ⟨⟨magic, root, fin, rfl⟩, -⟩ := mineLoop_spec hloop
  exact ⟨h.populated hpoint, rfl⟩

/-! ## Filling the working block -/

/-- The moves take the transactions `ts` from `tq`; they take no block, mine
nothing and push nothing. -/
structure Takes (tr : List (TransitionSystem.Move Thread (Input × List Effect)))
    (ts : List Transaction) : Prop where
  pushes : ∀ m ∈ tr, pushes m.label.2 = []
  noBlock : ∀ m ∈ tr, ∀ b env, m.label.1 ≠ .block (some b) env
  noMine : ∀ m ∈ tr, m.label.1 ≠ .mine
  taken : ∀ t ∈ ts, ∃ m ∈ tr, m.label.1 = .transaction t

theorem Takes.append {tr tr' : List (TransitionSystem.Move Thread (Input × List Effect))}
    {ts ts' : List Transaction} (h : Takes tr ts) (h' : Takes tr' ts') :
    Takes (tr ++ tr') (ts ++ ts') where
  pushes := List.forall_mem_append.2 ⟨h.pushes, h'.pushes⟩
  noBlock := List.forall_mem_append.2 ⟨h.noBlock, h'.noBlock⟩
  noMine := List.forall_mem_append.2 ⟨h.noMine, h'.noMine⟩
  taken := by
    intro t ht
    rcases List.mem_append.1 ht with ht | ht
    · obtain ⟨m, hm, htaken⟩ := h.taken t ht
      exact ⟨m, List.mem_append_left _ hm, htaken⟩
    · obtain ⟨m, hm, htaken⟩ := h'.taken t ht
      exact ⟨m, List.mem_append_right _ hm, htaken⟩

/-- A thread at the loop head takes a new voter in two steps. -/
theorem WellFormed.exists_taken (SHA1 : Bytes → Digest) (tail : GenesisTail) {th : Thread}
    (h : th.WellFormed) (hpoint : th.point = .head)
    (hlt : th.newBlock.votes.length < numTransactionsPerBlock) {t : Transaction}
    (hvoted : t.senderPublicKey ∉ th.bc.voted) (hnew : t.senderPublicKey ∉ th.newBlock.senders) :
    ∃ tr th', (processingThread SHA1 tail).Run th tr th' ∧ Takes tr [t] ∧ th'.bc = th.bc ∧
      th'.newBlock.votes = th.newBlock.votes ++ [t] ∧ th'.newBlock.magic = th.newBlock.magic ∧
      (th'.point = if th.newBlock.votes.length + 1 = numTransactionsPerBlock then .mine
        else .head) ∧ ∀ m ∈ tr, ∀ u, m.label.1 = .transaction u → u ∈ [t] := by
  have hquota : th.quotafull = false := by
    by_contra hfull
    have hmax := h.full_iff.1 (Bool.of_not_eq_false hfull)
    rw [h.filling.maxInd_eq] at hmax
    omega
  obtain ⟨b, hb⟩ := h.filling.exists_setEntry hlt t
  obtain ⟨-, hvotes, hmax, hmagic⟩ := h.filling.setEntry hnew hb
  have hidle : Step SHA1 th (.block none .alone, []) { th with point := .pop } := by
    have hafter : th.afterBlock = .pop := by rw [afterBlock, hquota]; rfl
    rw [← hafter]
    exact .idle hpoint
  have htake : ({ th with point := .pop } : Thread).takeTransaction t =
      .ok ({ th with
        newBlock := { b with maxInd := b.maxInd + 1 }
        quotafull := th.quotafull || b.maxInd + 1 = (numTransactionsPerBlock : Int)
        point := if th.quotafull || b.maxInd + 1 = (numTransactionsPerBlock : Int) then .mine
          else .head }, [.broadcastTransaction t]) := by
    have hmem : t.senderPublicKey ∉ th.newBlock.votes.map (·.senderPublicKey) := hnew
    unfold takeTransaction
    rw [if_neg hvoted]
    dsimp only
    rw [h.filling.entries, Except.ok_bind, if_neg hmem, hb]
    rfl
  refine ⟨_, _, .snoc (.snoc .nil hidle) (.transaction rfl htake), ⟨?_, ?_, ?_, ?_⟩, rfl, hvotes,
    hmagic, ?_, by simp⟩
  · simp
  · simp
  · simp
  · simp
  simp only [hquota, hmax, h.filling.maxInd_eq, Bool.false_or, decide_eq_true_eq]
  refine if_congr ?_ rfl rfl
  omega

/-- A thread at the loop head takes new voters until its working block is full. -/
theorem WellFormed.exists_full (SHA1 : Bytes → Digest) (tail : GenesisTail) {th : Thread}
    (h : th.WellFormed) (hpoint : th.point = .head) {ts : List Transaction} (hne : ts ≠ [])
    (hlen : th.newBlock.votes.length + ts.length = numTransactionsPerBlock)
    (hvoted : ∀ t ∈ ts, t.senderPublicKey ∉ th.bc.voted)
    (hnodup : (th.newBlock.senders ++ ts.map (·.senderPublicKey)).Nodup) :
    ∃ tr th', (processingThread SHA1 tail).Run th tr th' ∧ Takes tr ts ∧ th'.bc = th.bc ∧
      th'.newBlock.votes = th.newBlock.votes ++ ts ∧ th'.newBlock.magic = th.newBlock.magic ∧
      th'.point = .mine ∧ ∀ m ∈ tr, ∀ u, m.label.1 = .transaction u → u ∈ ts := by
  induction ts generalizing th with
  | nil => exact absurd rfl hne
  | cons t rest ih =>
      rw [List.length_cons] at hlen
      have hnew : t.senderPublicKey ∉ th.newBlock.senders := by
        intro hmem
        exact (List.nodup_append'.1 hnodup).2.2 hmem (by simp)
      obtain ⟨tr, th₁, hrun, htakes, hbc, hvotes, hmagic, hpoint₁, honly⟩ :=
        h.exists_taken SHA1 tail hpoint (by omega) (hvoted t List.mem_cons_self) hnew
      by_cases hrest : rest = []
      · subst hrest
        rw [if_pos (by simpa using hlen)] at hpoint₁
        exact ⟨tr, th₁, hrun, htakes, hbc, hvotes, hmagic, hpoint₁, honly⟩
      · have hpos := List.length_pos_of_ne_nil hrest
        rw [if_neg (by omega)] at hpoint₁
        have hsenders : th₁.newBlock.senders = th.newBlock.senders ++ [t.senderPublicKey] := by
          rw [Block.senders, hvotes, List.map_append]
          rfl
        have hwell₁ := (wellFormed_invariant SHA1 tail).preserved.run hrun h (by simp)
        obtain ⟨tr', th', hrun', htakes', hbc', hvotes', hmagic', hpoint', honly'⟩ :=
          ih hwell₁ hpoint₁ hrest
          (by rw [hvotes, List.length_append, List.length_singleton]; omega)
          (fun u hu => hbc ▸ hvoted u (List.mem_cons_of_mem _ hu))
          (by rw [hsenders, List.append_assoc]; exact hnodup)
        refine ⟨tr ++ tr', th', hrun.append hrun', htakes.append htakes', hbc'.trans hbc, ?_,
          hmagic'.trans hmagic, hpoint', List.forall_mem_append.2 ⟨?_, ?_⟩⟩
        · rw [hvotes', hvotes, List.append_assoc]
          rfl
        · intro m hm u hu
          rw [List.mem_singleton.1 (honly m hm u hu)]
          exact List.mem_cons_self
        · intro m hm u hu
          exact List.mem_cons_of_mem _ (honly' m hm u hu)

end Thread

end OneVote
