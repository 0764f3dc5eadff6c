-- SUMMARY: Chains and working blocks that are the same but for entries that were never assigned.
import OneVote.BlockRequests

/-!
# Alike chains

A block keeps eight entries, and nothing is written to those that are not filled.
Two chains are alike if they differ in the entries of the genesis block only, and
two working blocks if they differ in entries behind `max_ind` only. What the
program does with alike chains has alike results.
-/

namespace OneVote

/-- What the entries of a block hold before they are assigned: a pointer to some
transaction, or `none` for a pointer to none. -/
abbrev Entries := Vector (Option Transaction) numTransactionsPerBlock

/-- The same behind every entry. -/
def Entries.all (t? : Option Transaction) : Entries := Vector.replicate numTransactionsPerBlock t?

/-- The block with `entries` behind what was not assigned. -/
def Block.inMemory (b : Block) (entries : Entries) : Block :=
  { b with transactionArray := Vector.zipWith Option.or b.transactionArray entries }

namespace Blockchain

/-- The chain on a genesis block with the given entries. -/
def onGenesis (tail : GenesisTail) (entries : Entries) (above : List Block) (n : Nat)
    (voted : Finset Bytes) : Blockchain :=
  ⟨above ++ [{ genesis tail with transactionArray := entries }], n, voted⟩

/-- The previous hash is the hash of the newest block. -/
def Links (bc : Blockchain) (prev : CharPtr) : Prop :=
  ∃ head, bc.getHeadBlock = .ok head ∧ sameHash prev head.finhash = .ok true

end Blockchain

/-! ## Assigned entries -/

namespace Block

theorem readEntries_zipWith_or {n : Nat} {l entries : List (Option Transaction)}
    {ts : List Transaction} (h : readEntries n l = .ok ts) (hlen : n ≤ entries.length) :
    readEntries n (List.zipWith Option.or l entries) = .ok ts := by
  induction n generalizing l entries ts with
  | zero => simpa [readEntries] using h
  | succ n ih =>
      cases l with
      | nil => cases h
      | cons t? rest =>
          cases t? with
          | none => cases h
          | some t =>
              obtain ⟨us, hus, rfl⟩ := Except.map_eq_ok.1 h
              cases entries with
              | nil => cases hlen
              | cons u? entries =>
                  rw [List.zipWith_cons_cons, Option.some_or, readEntries,
                    ih hus (Nat.le_of_succ_le_succ hlen)]
                  rfl

theorem toList_inMemory (b : Block) (entries : Entries) :
    (b.inMemory entries).transactionArray.toList =
      List.zipWith Option.or b.transactionArray.toList entries.toList := Vector.toList_zipWith

/-- Entries that can be read are not taken from the memory. -/
theorem entries_inMemory {b : Block} {n : Nat} {ts : List Transaction} (h : b.entries n = .ok ts)
    (entries : Entries) : (b.inMemory entries).entries n = .ok ts := by
  have hn : n ≤ entries.toList.length := by
    obtain ⟨hlen, htake⟩ := entries_eq_ok.1 h
    have hle := congrArg List.length htake
    rw [List.length_take, length_transactionArray, List.length_map, hlen] at hle
    rw [Vector.length_toList]
    omega
  unfold Block.entries
  rw [toList_inMemory]
  exact readEntries_zipWith_or h hn

/-- A block is determined by its entries if they can all be read. -/
theorem eq_of_entries {b b' : Block} {ts : List Transaction}
    (hfields : ∃ arr, b' = { b with transactionArray := arr })
    (h : b.entries numTransactionsPerBlock = .ok ts)
    (h' : b'.entries numTransactionsPerBlock = .ok ts) : b' = b := by
  obtain ⟨arr, rfl⟩ := hfields
  have hlist : ∀ {c : Block}, c.entries numTransactionsPerBlock = .ok ts →
      c.transactionArray.toList = ts.map some := by
    intro c hc
    rw [← (entries_eq_ok.1 hc).2, List.take_of_length_le (length_transactionArray c).le]
  have harr : arr = b.transactionArray := Vector.toList_inj.1 ((hlist h').trans (hlist h).symm)
  rw [harr]

theorem Populated.inMemory {b : Block} (h : b.Populated) (entries : Entries) :
    b.inMemory entries = b :=
  eq_of_entries ⟨_, rfl⟩ h.entries (entries_inMemory h.entries entries)

/-- Memory that holds the same behind every entry. -/
theorem inMemory_all (b : Block) (t? : Option Transaction) :
    (b.inMemory (Entries.all t?)).transactionArray = b.transactionArray.map (·.or t?) := by
  ext i hi
  simp [inMemory, Entries.all]

theorem inMemory_none (b : Block) : b.inMemory (Entries.all none) = b := by
  have harr : (b.inMemory (Entries.all none)).transactionArray = b.transactionArray := by
    rw [inMemory_all]
    simp
  exact congrArg (fun arr => { b with transactionArray := arr }) harr

theorem populated_inMemory_some (b : Block) (t : Transaction) :
    (b.inMemory (Entries.all (some t))).Populated := by
  intro t? ht
  rw [inMemory_all, Vector.toList_map, List.mem_map] at ht
  obtain ⟨u?, -, rfl⟩ := ht
  cases u? <;> rfl

end Block

/-! ## Chains on one genesis block -/

namespace Blockchain

/-- The chains are the same but for the entries of the genesis block. -/
inductive Alike (tail : GenesisTail) : Blockchain → Blockchain → Prop
  | mk (entries entries' : Entries) (above : List Block) (n : Nat) (voted : Finset Bytes) :
      Alike tail (onGenesis tail entries above n voted) (onGenesis tail entries' above n voted)

variable {tail : GenesisTail} {bc bc' : Blockchain}

theorem Alike.voted (h : Alike tail bc bc') : bc'.voted = bc.voted := by
  cases h
  rfl

theorem Alike.nonGenesis (h : Alike tail bc bc') : bc'.nonGenesis = bc.nonGenesis := by
  cases h
  simp [Blockchain.nonGenesis, onGenesis]

theorem Alike.finhash (h : Alike tail bc bc') :
    bc'.blocks.map (·.finhash) = bc.blocks.map (·.finhash) := by
  cases h
  simp [onGenesis]

theorem Alike.getHeadBlock (h : Alike tail bc bc') :
    bc.getHeadBlock.Rel (fun head head' => head'.finhash = head.finhash ∧
      head'.blockNumber = head.blockNumber ∧ encodeBlock head' = encodeBlock head)
      bc'.getHeadBlock := by
  cases h with
  | mk entries entries' above n voted =>
      unfold Blockchain.getHeadBlock onGenesis
      dsimp only
      split
      · exact .error _
      · cases above with
        | nil => exact .ok ⟨rfl, rfl, rfl⟩
        | cons head above => exact .ok ⟨rfl, rfl, rfl⟩

theorem findHash_congr {c c' : Block} (hfin : c'.finhash = c.finhash) (hash : CharPtr)
    (above : List Block) : findHash hash (above ++ [c']) = findHash hash (above ++ [c]) := by
  induction above with
  | nil => simp only [List.nil_append, findHash, hfin]
  | cons d rest ih => simp only [List.cons_append, findHash, ih]

theorem Alike.checkIfBlockInChain (h : Alike tail bc bc') {b b' : Block}
    (hfin : b'.finhash = b.finhash) :
    bc'.checkIfBlockInChain b' = bc.checkIfBlockInChain b := by
  cases h with
  | mk entries entries' above n voted =>
      unfold Blockchain.checkIfBlockInChain
      rw [hfin]
      refine findHash_congr ?_ _ above
      rfl

theorem Alike.checkBlockValidity (h : Alike tail bc bc') {b b' : Block}
    (hprev : b'.prevBlockSHA1 = b.prevBlockSHA1)
    (hverify : bc.Links b.prevBlockSHA1 → bc.verifyTransactions b' = bc.verifyTransactions b) :
    bc'.checkBlockValidity b' = bc.checkBlockValidity b := by
  have hhead := h.getHeadBlock.imp (S := fun head head' =>
    bc.getHeadBlock = .ok head ∧ head'.finhash = head.finhash)
    fun head head' hhead _ hsame => ⟨hhead, hsame.1⟩
  refine (Except.Rel.eq (hhead.bind fun head head' hsame => ?_)).symm
  obtain ⟨hhead, hfin⟩ := hsame
  rw [hprev, hfin]
  refine Except.Rel.bind_same _ fun same hsame => ?_
  cases same with
  | false => exact .ok rfl
  | true =>
      -- only a block that links to the head gets to the check on its voters
      have hfresh : bc'.verifyTransactions b' = bc.verifyTransactions b := by
        rw [← hverify ⟨head, hhead, hsame⟩, Blockchain.verifyTransactions, h.voted]
        rfl
      rw [hfresh]
      exact Except.Rel.refl (fun _ => rfl) _

theorem Alike.getBlock (h : Alike tail bc bc') (hash : Bytes) :
    MinerService.getBlock bc' hash = MinerService.getBlock bc hash := by
  unfold MinerService.getBlock
  split
  · refine (Except.Rel.eq (h.getHeadBlock.bind fun head head' hsame => ?_)).symm
    rw [hsame.2.2]
    exact Except.Rel.refl (fun _ => rfl) _
  · cases h with
    | mk entries entries' above n voted =>
        unfold Blockchain.getBlockByHash onGenesis
        rw [findBlock_append, findBlock_append]
        cases findBlock (CharPtr.ofString hash) above with
        | error e => rfl
        | ok found =>
            cases found with
            | some b => rfl
            | none =>
                -- the genesis block is found or nothing is: its `max_ind` is 0
                simp only [Except.ok_bind, findBlock]
                cases sameHash (genesis tail).finhash (CharPtr.ofString hash) with
                | error e => rfl
                | ok same => cases same <;> rfl

/-! ## Changing the chain -/

theorem Alike.addBlock (h : Alike tail bc bc') (b : Block) :
    (bc.addBlock b).Rel (fun r r' => Alike tail r.1 r'.1 ∧ r'.2 = r.2) (bc'.addBlock b) := by
  cases h with
  | mk entries entries' above n voted =>
      unfold Blockchain.addBlock addTransactionsToSet onGenesis
      cases b.entries numTransactionsPerBlock with
      | error e => exact .error e
      | ok ts => exact .ok ⟨.mk entries entries' (numbered b (n + 1) :: above) (n + 1) _, rfl⟩

/-- The blocks that a removal removes lie above the genesis block. -/
theorem removeBlocks_onGenesis (tail : GenesisTail) (entries entries' : Entries) {it : Nat}
    {above : List Block} (hit : it ≤ above.length) (n : Nat) (voted : Finset Bytes) :
    (removeBlocks it (onGenesis tail entries above n voted)).Rel (fun r r' => Alike tail r.1 r'.1)
      (removeBlocks it (onGenesis tail entries' above n voted)) := by
  induction it generalizing above voted with
  | zero => exact .ok (.mk entries entries' above n voted)
  | succ it ih =>
      cases above with
      | nil => cases hit
      | cons first rest =>
          have hfirst : ∀ entries, removeBlocks (it + 1)
              (onGenesis tail entries (first :: rest) n voted) =
                first.entries numTransactionsPerBlock >>= fun ts =>
                  addTransactionsToQueue first >>= fun pushed =>
                    removeBlocks it (onGenesis tail entries rest n
                      (ts.foldl (fun voted t => voted.erase t.senderPublicKey) voted)) >>=
                        fun r => .ok (r.1, pushed ++ r.2) := by
            intro entries
            change removeTransactionsFromSet _ _ >>= _ = _
            unfold removeTransactionsFromSet
            cases first.entries numTransactionsPerBlock <;> rfl
          rw [hfirst, hfirst]
          refine Except.Rel.bind_same _ fun ts _ => Except.Rel.bind_same _ fun pushed _ => ?_
          exact (ih (Nat.le_of_succ_le_succ hit) _).bind fun r r' hr => .ok hr

/-- Above the genesis block the chains hold the same blocks. -/
theorem Alike.take_blocks (h : Alike tail bc bc') {it : Nat} (hit : it < bc.blocks.length) :
    bc'.blocks.take it = bc.blocks.take it := by
  cases h with
  | mk entries entries' above n voted =>
      simp only [onGenesis, List.length_append, List.length_singleton] at hit ⊢
      rw [List.take_append_of_le_length (by omega), List.take_append_of_le_length (by omega)]

theorem Alike.truncated (h : Alike tail bc bc') {it : Nat} (hit : it < bc.blocks.length) :
    Alike tail (bc.truncated it) (bc'.truncated it) := by
  have htake := h.take_blocks hit
  unfold Blockchain.truncated
  rw [htake]
  cases h with
  | mk entries entries' above n voted =>
      simp only [onGenesis, List.length_append, List.length_singleton] at hit ⊢
      rw [List.drop_append_of_le_length (by omega), List.drop_append_of_le_length (by omega)]
      exact .mk entries entries' (above.drop it) n _

theorem ancestorWalk_alike (h : Alike tail bc bc') {b b' : Block} (hfin : b'.finhash = b.finhash)
    (env : RepairEnv) (fuel i : Nat) (acc acc' : List Block) :
    (bc.ancestorWalk env b fuel i acc).Rel (fun _ _ => True)
      (bc'.ancestorWalk env b' fuel i acc') := by
  induction fuel generalizing i acc acc' with
  | zero => exact .error _
  | succ fuel ih =>
      unfold ancestorWalk
      rw [h.checkIfBlockInChain hfin]
      refine Except.Rel.bind_same _ fun it _ => ?_
      cases it with
      | some it => exact .ok trivial
      | none =>
          refine Except.Rel.bind_same _ fun parent _ => ?_
          cases parent with
          | none => exact .ok trivial
          | some parent => exact ih (i + 1) _ _

theorem Alike.repairBlockchain (h : Alike tail bc bc') {b b' : Block}
    (hfin : b'.finhash = b.finhash) (env : RepairEnv) :
    (bc.repairBlockchain b env).Rel (fun r r' => r'.1 = r.1 ∧ Alike tail r.2.1 r'.2.1)
      (bc'.repairBlockchain b' env) := by
  -- a walk that ends has passed no block, so the blocks themselves are not added
  have hwalk := (ancestorWalk_alike h hfin env env.fuel 0 [] []).imp
    (S := fun w w' => ∃ it, bc.checkIfBlockInChain b = .ok (some it) ∧ w = .met it [] ∧
      w' = .met it []) fun w w' hw hw' _ => by
        obtain ⟨-, it, hit, rfl⟩ := ancestorWalk_eq_ok.1 hw
        obtain ⟨-, it', hit', rfl⟩ := ancestorWalk_eq_ok.1 hw'
        rw [h.checkIfBlockInChain hfin, hit] at hit'
        cases hit'
        exact ⟨it, hit, rfl, rfl⟩
  refine hwalk.bind fun w w' hw => ?_
  obtain ⟨it, hit, rfl, rfl⟩ := hw
  have hlt := lt_of_checkIfBlockInChain hit
  cases h with
  | mk entries entries' above n voted =>
      have hle : it ≤ above.length := by
        simp only [onGenesis, List.length_append, List.length_singleton] at hlt
        omega
      exact (removeBlocks_onGenesis tail entries entries' hle n voted).bind
        fun r r' hr => .ok ⟨rfl, hr⟩

end Blockchain

/-! ## Working blocks -/

namespace Block

/-- The working blocks are the same but for entries behind `max_ind`. -/
structure Alike (b b' : Block) : Prop where
  fields : ∃ arr, b' = { b with transactionArray := arr }
  entries : ∃ ts, b.entries b.maxInd.toNat = .ok ts ∧ b'.entries b'.maxInd.toNat = .ok ts

theorem new_alike : new.Alike new where
  fields := ⟨_, rfl⟩
  entries := ⟨[], rfl, rfl⟩

variable {b b' : Block}

theorem Alike.maxInd (h : b.Alike b') : b'.maxInd = b.maxInd := by
  obtain ⟨arr, rfl⟩ := h.fields
  rfl

theorem Alike.inMemory (h : b.Alike b') (entries entries' : Entries) :
    (b.inMemory entries).Alike (b'.inMemory entries') := by
  obtain ⟨ts, hts, hts'⟩ := h.entries
  refine ⟨?_, ts, entries_inMemory hts entries, entries_inMemory hts' entries'⟩
  obtain ⟨arr, rfl⟩ := h.fields
  exact ⟨_, rfl⟩

/-- Full working blocks have no entry behind `max_ind`. -/
theorem Alike.eq_of_full (h : b.Alike b') (hfull : b.maxInd = numTransactionsPerBlock) :
    b' = b := by
  obtain ⟨ts, hts, hts'⟩ := h.entries
  rw [h.maxInd, hfull] at hts'
  rw [hfull] at hts
  exact eq_of_entries h.fields hts hts'

theorem entries_setEntry {c : Block} {t : Transaction} {ts : List Transaction}
    (hts : b.entries b.maxInd.toNat = .ok ts) (hset : b.setEntry b.maxInd t = .ok c) :
    ({ c with maxInd := c.maxInd + 1 } : Block).entries (c.maxInd + 1).toNat =
      .ok (ts ++ [t]) := by
  obtain ⟨hnonneg, hlt, arr, harr, rfl⟩ := setEntry_eq_ok.1 hset
  obtain ⟨hlen, htake⟩ := entries_eq_ok.1 hts
  have hnext : (b.maxInd + 1).toNat = b.maxInd.toNat + 1 := by omega
  dsimp only
  rw [hnext, entries_eq_ok, harr]
  refine ⟨by rw [List.length_append, hlen]; rfl, ?_⟩
  have hbound : b.maxInd.toNat < b.transactionArray.toList.length := by
    rw [length_transactionArray]
    exact hlt
  rw [List.set_eq_take_append_cons_drop, if_pos hbound, List.append_cons, List.map_append, ← htake]
  refine List.take_left' ?_
  rw [List.length_append, List.length_take, Nat.min_eq_left hbound.le]
  rfl

theorem Alike.setEntry (h : b.Alike b') (t : Transaction) :
    (b.setEntry b.maxInd t).Rel (fun c c' => ({ c with maxInd := c.maxInd + 1 } : Block).Alike
      { c' with maxInd := c'.maxInd + 1 }) (b'.setEntry b'.maxInd t) := by
  have hrel : (b.setEntry b.maxInd t).Rel
      (fun c c' => ∃ arr, c' = { c with transactionArray := arr }) (b'.setEntry b'.maxInd t) := by
    obtain ⟨arr, rfl⟩ := h.fields
    unfold Block.setEntry
    split
    · exact .ok ⟨_, rfl⟩
    · exact .error _
  refine hrel.imp fun c c' hc hc' hfields => ?_
  obtain ⟨ts, hts, hts'⟩ := h.entries
  refine ⟨?_, ts ++ [t], entries_setEntry hts hc, entries_setEntry hts' hc'⟩
  obtain ⟨arr, rfl⟩ := hfields
  exact ⟨arr, rfl⟩

end Block

end OneVote
