-- SUMMARY: Runs of the processing thread that may end in a failed assertion, and the steps at which that happens.
import OneVote.Numbering
import OneVote.Propagation

/-!
# Assertions

A failed `assert` ends the whole miner. The steps of the processing thread are
extended by the attempts that end so.
-/

namespace OneVote

open TransitionSystem (Move)

/-- The processing thread, or the assertion that stopped it. -/
inductive Outcome
  | running (th : Thread)
  | stopped (a : Assertion)

/-- The assertions on the accept and mining paths: on a block number, on the
Merkle root, and on the length of the chain. -/
def Assertion.OnPath : Assertion → Prop
  | .acceptedNumber | .repairNumber | .minedNumber | .merkleRootByte | .emptyChain => True
  | .childBlock | .childPrevByte | .childFinhashByte | .parentMissing => False

/-- Any other end. -/
def Stop.OffPath : Stop → Prop
  | .assertion a => ¬ a.OnPath
  | _ => True

theorem Stop.IsAccess.offPath {e : Stop} (h : e.IsAccess) : e.OffPath := by
  cases e with
  | assertion a => cases h
  | _ => trivial

namespace Outcome

/-- A step of the thread, or its end in an assertion. The client's `getBlock`
contains none. -/
inductive Step (SHA1 : Bytes → Digest) : Outcome → Input × List Effect → Outcome → Prop
  | step {th th' : Thread} {i : Input × List Effect} :
      Thread.Step SHA1 th i th' → Step SHA1 (.running th) i (.running th')
  | block {th : Thread} {b : Block} {env : RepairEnv} {a : Assertion} :
      th.point = .head →
      (∀ hash, (env.getBlock hash).Raises Stop.OffPath) →
      th.handleBlock b env = .error (.assertion a) →
      Step SHA1 (.running th) (.block (some b) env, []) (.stopped a)
  | transaction {th : Thread} {t : Transaction} {a : Assertion} :
      th.point = .pop →
      th.takeTransaction t = .error (.assertion a) →
      Step SHA1 (.running th) (.transaction t, []) (.stopped a)
  | mine {th : Thread} {a : Assertion} :
      th.point = .mine →
      th.mine SHA1 = .error (.assertion a) →
      Step SHA1 (.running th) (.mine, []) (.stopped a)

/-- An assertion on the accept or mining path has failed. -/
def Failed (o : Outcome) : Prop := ∃ a, o = .stopped a ∧ a.OnPath

end Outcome

def supervised (SHA1 : Bytes → Digest) (tail : GenesisTail) :
    TransitionSystem Outcome (Input × List Effect) where
  init o := o = .running (.initial tail)
  step := Outcome.Step SHA1

namespace Thread

variable {SHA1 : Bytes → Digest}

/-- Handling the block passes the assertions on its number: it is accepted only
on a chain of at most four, and compared as a longer chain only up to 5. -/
def PassesNumber (th : Thread) (b : Block) : Prop :=
  (th.bc.checkBlockValidity b = .ok .ok → th.bc.chainLength < 5) ∧
    (th.bc.checkBlockValidity b = .ok .prevBlockNonmatch →
      (∃ head, th.bc.getHeadBlock = .ok head ∧ head.blockNumber < b.blockNumber) →
        b.blockNumber ≤ 5)

/-- The final hash over the given leaf data and magic meets the mining target. -/
def HitsTarget (SHA1 : Bytes → Digest) (data : Bytes) (magic : UInt64) : Prop :=
  ∃ lz, leadingZeros (SHA1 ((Block.uniformRoot SHA1 data).bytes ++ Block.magicBytes magic)).ptr
    publicKeySize = .ok lz ∧ numLeadingZeros ≤ lz

/-- Mining passes the assertions: the Merkle root of the working block does not
begin with a zero byte, and on a chain of five no magic that is tried hits the
target. -/
def PassesMining (SHA1 : Bytes → Digest) (th : Thread) : Prop :=
  ∀ data, th.newBlock.leafData = .ok data →
    (Block.uniformRoot SHA1 data).bytes[0]? ≠ some 0 ∧
      (5 ≤ th.bc.chainLength → ∀ k < numMagicToTry,
        ¬ HitsTarget SHA1 data (th.newBlock.magic + 1 + UInt64.ofNat k))

end Thread

/-! ## How the parts of an iteration fail -/

namespace Blockchain

theorem raises_checkBlockValidity {bc : Blockchain} {head : Block}
    (hhead : bc.getHeadBlock = .ok head) (b : Block) :
    (bc.checkBlockValidity b).Raises Stop.OffPath := by
  unfold checkBlockValidity
  rw [hhead, Except.ok_bind]
  refine ((raises_sameHash _ _).mono fun _ => Stop.IsAccess.offPath).bind fun same _ => ?_
  split
  · exact Except.raises_ok _ _
  refine ((bc.raises_verifyTransactions b).mono fun _ => Stop.IsAccess.offPath).bind
    fun fresh _ => ?_
  split
  · exact Except.raises_ok _ _
  · exact Except.raises_ok _ _

theorem raises_ancestorWalk (bc : Blockchain) {env : RepairEnv}
    (henv : ∀ hash, (env.getBlock hash).Raises Stop.OffPath) (b : Block) (fuel i : Nat)
    (acc : List Block) : (bc.ancestorWalk env b fuel i acc).Raises Stop.OffPath := by
  have hassert : ∀ a ∈ [Assertion.childBlock, .childPrevByte, .childFinhashByte, .parentMissing],
      (Stop.assertion a).OffPath := by
    simp [Stop.OffPath, Assertion.OnPath]
  induction fuel generalizing i acc with
  | zero => exact Except.raises_error trivial
  | succ fuel ih =>
      rw [ancestorWalk]
      refine ((bc.raises_checkIfBlockInChain b).mono fun _ => Stop.IsAccess.offPath).bind
        fun it? _ => ?_
      cases it? with
      | some it => exact Except.raises_ok _ _
      | none =>
          refine (raises_getParentBlockFromNeighbor hassert (fun _ => Stop.IsAccess.offPath) henv
            _).bind fun parent? _ => ?_
          cases parent? with
          | none => exact Except.raises_ok _ _
          | some parent => exact ih _ _

theorem raises_repairBlockchain (bc : Blockchain) {env : RepairEnv}
    (henv : ∀ hash, (env.getBlock hash).Raises Stop.OffPath) (b : Block) :
    (bc.repairBlockchain b env).Raises Stop.OffPath := by
  refine (bc.raises_ancestorWalk henv b _ _ _).bind fun w _ => ?_
  cases w with
  | noParent => exact Except.raises_ok _ _
  | met it blocksToAdd =>
      refine ((raises_removeBlocks it bc).mono fun _ => Stop.IsAccess.offPath).bind fun r _ => ?_
      refine (Except.raises_foldlM (fun bc c => ?_) _ _).bind fun _ _ => Except.raises_ok _ _
      exact (bc.raises_addTransactionsToSet c).mono fun _ => Stop.IsAccess.offPath

theorem raises_addBlock (bc : Blockchain) (b : Block) : (bc.addBlock b).Raises Stop.IsAccess :=
  (raises_addTransactionsToSet _ b).bind fun _ _ => Except.raises_ok _ _

end Blockchain

namespace Thread

theorem raises_reset (th : Thread) : th.reset.Raises Stop.OffPath :=
  ((th.newBlock.raises_entries _).mono fun _ => Stop.IsAccess.offPath).bind
    fun _ _ => Except.raises_ok _ _

theorem raises_takeTransaction (th : Thread) (t : Transaction) :
    (th.takeTransaction t).Raises Stop.OffPath := by
  unfold takeTransaction
  split
  · exact Except.raises_ok _ _
  refine ((th.newBlock.raises_entries _).mono fun _ => Stop.IsAccess.offPath).bind fun ts _ => ?_
  split
  · exact Except.raises_ok _ _
  have hset : (th.newBlock.setEntry th.newBlock.maxInd t).Raises Stop.OffPath := by
    unfold Block.setEntry
    split
    · exact Except.raises_ok _ _
    · exact Except.raises_error trivial
  exact hset.bind fun b _ => Except.raises_ok _ _

/-! ## Which steps fail -/

theorem number_le_iff {n : Nat} (h : n ≤ 5) : UInt32.ofNat (n + 1) ≤ 5 ↔ n < 5 := by
  refine ⟨lt_of_number_le h, fun hlt => ?_⟩
  rw [UInt32.le_iff_toNat_le, Blockchain.toNat_ofNat_succ h]
  exact hlt

theorem Short.passesNumber {th : Thread} (h : th.Short) {b : Block} {env : RepairEnv}
    (hoff : (th.handleBlock b env).Raises Stop.OffPath) : th.PassesNumber b := by
  constructor
  · intro hcheck
    by_contra hlong
    have hnumber : 5 < UInt32.ofNat (th.bc.chainLength + 1) :=
      UInt32.not_le.1 (mt (number_le_iff h.chainLength_le).1 hlong)
    refine hoff (.assertion .acceptedNumber) ?_ trivial
    rw [handleBlock_of_ok env hcheck, if_pos hnumber]
  · rintro hcheck ⟨head, hhead, hhigher⟩
    by_contra hnumber
    refine hoff (.assertion .repairNumber) ?_ trivial
    unfold handleBlock
    rw [hcheck, Except.ok_bind]
    dsimp only
    rw [hhead, Except.ok_bind, if_pos hhigher, if_pos (UInt32.not_le.1 hnumber)]

theorem Short.raises_handleBlock {th : Thread} (h : th.Short) {b : Block} {env : RepairEnv}
    (henv : ∀ hash, (env.getBlock hash).Raises Stop.OffPath) (hpass : th.PassesNumber b) :
    (th.handleBlock b env).Raises Stop.OffPath := by
  obtain ⟨head, hhead⟩ := h.exists_head
  refine (Blockchain.raises_checkBlockValidity hhead b).bind fun code hcode => ?_
  cases code with
  | ok =>
      refine ((th.bc.raises_addBlock b).mono fun _ => Stop.IsAccess.offPath).bind ?_
      rintro ⟨bc, b'⟩ hadd
      obtain ⟨-, rfl, rfl⟩ := Blockchain.addBlock_eq_ok.1 hadd
      have hnumber : ¬ 5 < (Blockchain.numbered b (th.bc.chainLength + 1)).blockNumber :=
        UInt32.not_lt.2 ((number_le_iff h.chainLength_le).2 (hpass.1 hcode))
      dsimp only
      rw [if_neg hnumber]
      exact (raises_reset _).bind fun _ _ => Except.raises_ok _ _
  | prevBlockNonmatch =>
      dsimp only
      rw [hhead, Except.ok_bind]
      split
      · rename_i hhigher
        rw [if_neg (UInt32.not_lt.2 (hpass.2 hcode ⟨head, hhead, hhigher⟩))]
        refine (th.bc.raises_repairBlockchain henv b).bind ?_
        rintro ⟨repaired, bc, pushed⟩ -
        dsimp only
        split
        · exact (raises_reset _).bind fun _ _ => Except.raises_ok _ _
        · exact Except.raises_ok _ _
      · exact Except.raises_ok _ _
  | transactionInvalid => exact Except.raises_ok _ _

theorem raises_leadingZeros (buf : CharPtr) (n : Nat) :
    (leadingZeros buf n).Raises Stop.IsAccess := by
  have hfrom : ∀ n lz i, (leadingZerosFrom buf lz i n).Raises Stop.IsAccess := by
    intro n
    induction n with
    | zero => exact fun lz i => Except.raises_ok _ _
    | succ n ih =>
        intro lz i
        rw [leadingZerosFrom]
        refine (buf.raises_byte i).bind fun x _ => ?_
        split
        · exact ih _ _
        · split
          · exact Except.raises_ok _ _
          · exact Except.raises_ok _ _
  exact hfrom _ 0 0

theorem raises_leafData (b : Block) : b.leafData.Raises Stop.IsAccess := by
  have hentry : (b.entry 0).Raises Stop.IsAccess := by
    unfold Block.entry
    split
    · exact Except.raises_error trivial
    · exact Except.raises_error trivial
    · exact Except.raises_ok _ _
  exact hentry.bind fun t _ => CharPtr.raises_read _ _

theorem calculateFinhash_fails {b : Block} {data : Bytes} (hdata : b.leafData = .ok data)
    (hbyte : (Block.uniformRoot SHA1 data).bytes[0]? = some 0) :
    b.calculateFinhash SHA1 = .error (.assertion .merkleRootByte) := by
  unfold Block.calculateFinhash
  rw [Block.calculateMerkleRoot_eq, hdata]
  exact if_pos hbyte

/-- The first try already fails. -/
theorem mine_fails {th : Thread} {data : Bytes} (hdata : th.newBlock.leafData = .ok data)
    (hbyte : (Block.uniformRoot SHA1 data).bytes[0]? = some 0) :
    th.mine SHA1 = .error (.assertion .merkleRootByte) := by
  have hcalc : ({ th.newBlock with magic := th.newBlock.magic + 1 } :
      Block).calculateFinhash SHA1 = .error (.assertion .merkleRootByte) :=
    calculateFinhash_fails hdata hbyte
  unfold Thread.mine
  rw [mineLoop, hcalc]
  rfl

/-- The only assertion of the final hash is the one on the first byte of the root. -/
theorem raises_calculateFinhash {b : Block}
    (hbyte : ∀ data, b.leafData = .ok data → (Block.uniformRoot SHA1 data).bytes[0]? ≠ some 0) :
    (b.calculateFinhash SHA1).Raises Stop.OffPath := by
  unfold Block.calculateFinhash
  rw [Block.calculateMerkleRoot_eq]
  refine (((raises_leafData b).mono fun _ => Stop.IsAccess.offPath).map _).bind ?_
  rintro ⟨b', root⟩ hroot
  obtain ⟨data, hdata, heq⟩ := Except.map_eq_ok.1 hroot
  obtain ⟨rfl, rfl⟩ := Prod.mk.inj heq
  dsimp only
  rw [if_neg (hbyte data hdata)]
  exact Except.raises_ok _ _

/-- No try changes the data of the leaves. -/
theorem raises_mineLoop {b : Block}
    (hbyte : ∀ data, b.leafData = .ok data → (Block.uniformRoot SHA1 data).bytes[0]? ≠ some 0)
    (tries : Nat) : (mineLoop SHA1 tries b).Raises Stop.OffPath := by
  induction tries generalizing b with
  | zero => exact Except.raises_ok _ _
  | succ tries ih =>
      rw [mineLoop]
      refine (@raises_calculateFinhash SHA1 { b with magic := b.magic + 1 } hbyte).bind
        fun b' hb' => ?_
      obtain ⟨data, -, -, rfl⟩ := (Block.calculateFinhash_eq_ok SHA1).1 hb'
      refine ((raises_leadingZeros _ _).mono fun _ => Stop.IsAccess.offPath).bind fun lz _ => ?_
      split
      · exact Except.raises_ok _ _
      · exact ih hbyte

theorem exists_leadingZeros (d : Digest) : ∃ lz, leadingZeros d.ptr publicKeySize = .ok lz := by
  have heq := @leadingZeros_eq d.bytes (by rw [d.length_eq]; decide) []
  rw [List.append_nil, d.length_eq] at heq
  exact ⟨_, heq⟩

/-- A successful loop has read the data of the leaves. -/
theorem exists_leafData {b w : Block} {tries : Nat}
    (h : mineLoop SHA1 tries b = .ok (w, true)) : ∃ data, b.leafData = .ok data := by
  cases tries with
  | zero => cases h
  | succ tries =>
      rw [mineLoop] at h
      obtain ⟨b', hcalc, -⟩ := Except.bind_eq_ok.1 h
      obtain ⟨data, hdata, -⟩ := (Block.calculateFinhash_eq_ok SHA1).1 hcalc
      exact ⟨data, hdata⟩

/-- The loop succeeds when one of the magics it tries hits the target. -/
theorem mineLoop_success_iff {b : Block} {data : Bytes} (hdata : b.leafData = .ok data)
    (hbyte : (Block.uniformRoot SHA1 data).bytes[0]? ≠ some 0) (tries : Nat) :
    (∃ w, mineLoop SHA1 tries b = .ok (w, true)) ↔
      ∃ k < tries, HitsTarget SHA1 data (b.magic + 1 + UInt64.ofNat k) := by
  induction tries generalizing b with
  | zero => simp [mineLoop]
  | succ tries ih =>
      have hcalc := (@Block.calculateFinhash_eq_ok SHA1 { b with magic := b.magic + 1 } _).2
        ⟨data, hdata, hbyte, rfl⟩
      obtain ⟨lz, hlz⟩ := exists_leadingZeros (SHA1 ((Block.uniformRoot SHA1 data).bytes ++
        Block.magicBytes (b.magic + 1)))
      rw [mineLoop, hcalc, Except.ok_bind]
      dsimp only
      rw [hlz, Except.ok_bind]
      by_cases htarget : numLeadingZeros ≤ lz
      · rw [if_pos htarget]
        refine iff_of_true ⟨_, rfl⟩ ⟨0, Nat.succ_pos _, lz, ?_, htarget⟩
        simpa using hlz
      · rw [if_neg htarget]
        refine Iff.trans (ih hdata) ?_
        have hmagic : ∀ k, b.magic + 1 + UInt64.ofNat (k + 1) =
            b.magic + 1 + 1 + UInt64.ofNat k := by
          intro k
          rw [UInt64.ofNat_add, UInt64.add_comm (UInt64.ofNat k), ← UInt64.add_assoc]
          rfl
        constructor
        · rintro ⟨k, hk, hhit⟩
          exact ⟨k + 1, Nat.succ_lt_succ hk, hmagic k ▸ hhit⟩
        · rintro ⟨k, hk, hhit⟩
          cases k with
          | zero =>
              obtain ⟨lz', hlz', htarget'⟩ := hhit
              have hfirst : b.magic + 1 + UInt64.ofNat 0 = b.magic + 1 := UInt64.add_zero _
              rw [hfirst, hlz] at hlz'
              cases hlz'
              exact absurd htarget' htarget
          | succ k => exact ⟨k, Nat.lt_of_succ_lt_succ hk, hmagic k ▸ hhit⟩

theorem Short.mine_iff {th : Thread} (h : th.Short) (hwell : th.WellFormed)
    (hpoint : th.point = .mine) :
    (th.mine SHA1).Raises Stop.OffPath ↔ th.PassesMining SHA1 := by
  constructor
  · intro hoff data hdata
    have hbyte : (Block.uniformRoot SHA1 data).bytes[0]? ≠ some 0 :=
      fun hbyte => hoff _ (mine_fails hdata hbyte) trivial
    refine ⟨hbyte, fun hlong k hk hhit => ?_⟩
    obtain ⟨w, hloop⟩ := (mineLoop_success_iff hdata hbyte numMagicToTry).2 ⟨k, hk, hhit⟩
    obtain ⟨head, hhead⟩ := h.exists_head
    have hnumber : 5 < UInt32.ofNat (th.bc.chainLength + 1) :=
      UInt32.not_le.1 (mt (number_le_iff h.chainLength_le).1 (Nat.not_lt.2 hlong))
    refine hoff (.assertion .minedNumber) ?_ trivial
    rw [mine_of_found hloop hhead (hwell.mineLoop hpoint hloop).1, if_pos hnumber]
  · -- by cases on how the loop ends: it stops, it misses, or it succeeds
    intro hpass
    have hraises : (mineLoop SHA1 numMagicToTry th.newBlock).Raises Stop.OffPath :=
      raises_mineLoop (fun data hdata => (hpass data hdata).1) _
    rcases hloop : mineLoop SHA1 numMagicToTry th.newBlock with e | ⟨w, found⟩
    · have hmine : th.mine SHA1 = .error e := by
        unfold Thread.mine
        rw [hloop]
        rfl
      rw [hmine]
      exact Except.raises_error (hraises e hloop)
    · cases found with
      | false =>
          have hmine : th.mine SHA1 = .ok ({ th with newBlock := w, point := .head }, []) := by
            unfold Thread.mine
            rw [hloop]
            rfl
          rw [hmine]
          exact Except.raises_ok _ _
      | true =>
          -- a success on a chain of five is what the condition excludes
          have hshort : th.bc.chainLength < 5 := by
            by_contra hlong
            obtain ⟨data, hdata⟩ := exists_leafData hloop
            obtain ⟨hbyte, hmiss⟩ := hpass data hdata
            obtain ⟨k, hk, hhit⟩ := (mineLoop_success_iff hdata hbyte numMagicToTry).1 ⟨w, hloop⟩
            exact hmiss (Nat.not_lt.1 hlong) k hk hhit
          have hnumber := (number_le_iff h.chainLength_le).2 hshort
          obtain ⟨head, hhead⟩ := h.exists_head
          rw [mine_of_found hloop hhead (hwell.mineLoop hpoint hloop).1,
            if_neg (UInt32.not_lt.2 hnumber)]
          exact Except.raises_ok _ _

end Thread

/-! ## Runs without a failed assertion -/

namespace Outcome

variable {SHA1 : Bytes → Digest}

/-- A received block passes the assertions on its number, and a mining attempt
passes the assertions of mining. -/
def Spared (SHA1 : Bytes → Digest) (m : Move Outcome (Input × List Effect)) : Prop :=
  ∀ th, m.pre = .running th →
    (∀ b env, m.label.1 = .block (some b) env → th.PassesNumber b) ∧
      (m.label.1 = .mine → th.PassesMining SHA1)

theorem Step.failed_iff {th : Thread} {i : Input × List Effect} {o : Outcome}
    (hwell : th.WellFormed) (hshort : th.Short) (hs : Step SHA1 (.running th) i o) :
    ¬ o.Failed ↔ Spared SHA1 ⟨.running th, i, o⟩ := by
  have hrunning : ∀ th', ¬ (running th').Failed := by
    rintro th' ⟨a, ha, -⟩
    cases ha
  have hstopped : ∀ a, ¬ (stopped a).Failed ↔ ¬ a.OnPath := by
    intro a
    refine not_congr ⟨?_, fun ha => ⟨a, rfl, ha⟩⟩
    rintro ⟨_, ⟨⟩, ha⟩
    exact ha
  cases hs with
  | step hstep =>
      -- a step that was taken met no assertion, so that its input passes them
      refine iff_of_true (hrunning _) ?_
      rintro _ ⟨⟩
      cases hstep with
      | idle => exact ⟨by simp, by simp⟩
      | block _ hhandle =>
          refine ⟨fun b env hb => ?_, by simp⟩
          cases hb
          exact hshort.passesNumber (hhandle ▸ Except.raises_ok _ _)
      | transaction => exact ⟨by simp, by simp⟩
      | mine hpoint hmine =>
          exact ⟨by simp, fun _ => (hshort.mine_iff hwell hpoint).1 (hmine ▸ Except.raises_ok _ _)⟩
  | @block _ b env a _ henv hhandle =>
      rw [hstopped]
      have hiff : ¬ a.OnPath ↔ th.PassesNumber b := by
        refine ⟨fun ha => @Thread.Short.passesNumber th hshort b env ?_, fun hpass => ?_⟩
        · rw [hhandle]
          exact Except.raises_error ha
        · exact hshort.raises_handleBlock henv hpass _ hhandle
      rw [hiff]
      constructor
      · rintro hpass _ ⟨⟩
        refine ⟨fun b' env' hb => ?_, by simp⟩
        cases hb
        exact hpass
      · exact fun hspared => (hspared th rfl).1 b env rfl
  | transaction _ htake =>
      refine iff_of_true ((hstopped _).2 (Thread.raises_takeTransaction _ _ _ htake)) ?_
      rintro _ ⟨⟩
      exact ⟨by simp, by simp⟩
  | mine hpoint hmine =>
      rw [hstopped]
      have hiff := @Thread.Short.mine_iff SHA1 th hshort hwell hpoint
      rw [hmine, Except.raises_error_iff] at hiff
      refine hiff.trans ⟨?_, fun hspared => (hspared th rfl).2 rfl⟩
      rintro hpass _ ⟨⟩
      exact ⟨by simp, fun _ => hpass⟩

/-- No assertion on the accept and mining paths fails in a run exactly when every
block and every mining attempt of it passes them. -/
theorem run_spared_iff {tail : GenesisTail} {o : Outcome}
    {tr : List (Move Outcome (Input × List Effect))}
    (h : (supervised SHA1 tail).Run (.running (.initial tail)) tr o) :
    (∀ m ∈ tr, ¬ m.post.Failed) ↔ ∀ m ∈ tr, Spared SHA1 m := by
  refine TransitionSystem.Run.forall_post_iff (G := fun _ => True)
    (J := fun o => ∀ th, o = .running th → th.WellFormed ∧ th.Short)
    (P := fun o => ¬ o.Failed) ?_ ?_ h ?_ ?_ (by simp)
  · intro o i o' hs _ hj th hth
    cases hs with
    | step hstep =>
        cases hth
        obtain ⟨hwell, hshort⟩ := hj _ rfl
        exact ⟨hwell.change hstep.change, hshort.change hstep.change⟩
    | block => cases hth
    | transaction => cases hth
    | mine => cases hth
  · intro o i o' hs _ hj _
    cases o with
    | running th =>
        obtain ⟨hwell, hshort⟩ := hj th rfl
        exact hs.failed_iff hwell hshort
    | stopped a => cases hs
  · rintro _ ⟨⟩
    exact ⟨Thread.initial_wellFormed tail, Thread.initial_short tail⟩
  · rintro ⟨a, ha, -⟩
    cases ha

theorem run_of_thread {tail : GenesisTail} {th th' : Thread}
    {tr : List (Move Thread (Input × List Effect))}
    (h : (processingThread SHA1 tail).Run th tr th') :
    (supervised SHA1 tail).Run (.running th)
      (tr.map fun m => ⟨.running m.pre, m.label, .running m.post⟩) (.running th') :=
  h.map (g := id) fun _ _ _ hstep => Outcome.Step.step hstep

/-- A miner mines its first block. -/
theorem spared_mined :
    ∃ tr o, (supervised Block.sampleSHA1 Blockchain.sampleTail).Run
        (.running (.initial Blockchain.sampleTail)) tr o ∧
      (∃ m ∈ tr, m.label.1 = .mine) ∧ ∀ m ∈ tr, ¬ m.post.Failed := by
  obtain ⟨tr, th, w, hmined⟩ := Thread.exists_mined_sample Blockchain.sampleTail 1 (by decide)
  have hrun : (supervised Block.sampleSHA1 Blockchain.sampleTail).Run
      (.running (.initial Blockchain.sampleTail)) _ _ := run_of_thread (hmined.run.snoc hmined.step)
  refine ⟨_, _, hrun,
    ⟨_, List.mem_map_of_mem (List.mem_append_right _ List.mem_cons_self), rfl⟩,
    (run_spared_iff hrun).2 ?_⟩
  simp only [List.map_append, List.map_cons, List.map_nil, List.forall_mem_append,
    List.forall_mem_map, List.forall_mem_singleton]
  refine ⟨fun m hm => ?_, ?_⟩
  · rintro _ ⟨⟩
    exact ⟨fun b env hb => absurd hb (hmined.takes.noBlock m hm b env),
      fun hmine => absurd hmine (hmined.takes.noMine m hm)⟩
  · rintro _ ⟨⟩
    refine ⟨by simp, fun _ data hdata => ⟨?_, fun hlong => ?_⟩⟩
    · have hpoint : th.point = .mine := by
        cases hmined.step with
        | mine hpoint => exact hpoint
      have hwell := (Thread.wellFormed_invariant _ _).preserved.run hmined.run
        (Thread.initial_wellFormed _) (by simp)
      rw [(hwell.populated hpoint).leafData hmined.votes] at hdata
      obtain rfl : Block.sampleKey = data := Except.ok.inj hdata
      rw [Thread.uniformRoot_sampleKey]
      decide
    · rw [hmined.bc] at hlong
      exact absurd hlong (by decide)

/-! ### A root that begins with a zero byte

The digests of the strings that lead to the root of a block whose first voter
has the key 24. -/

def zeroRootKey : Bytes := List.replicate 18 48 ++ [50, 52]

def zeroRootLeaf : Digest where
  bytes := [47, 246, 211, 1, 158, 112, 36, 187, 201, 126, 80, 236, 30, 38, 231, 140, 174, 220, 237,
    221]
  length_eq := rfl

def zeroRootLevel₁ : Digest where
  bytes := [191, 21, 67, 201, 68, 111, 172, 141, 105, 9, 39, 30, 251, 74, 170, 193, 94, 184, 107,
    17]
  length_eq := rfl

def zeroRootLevel₂ : Digest where
  bytes := [74, 166, 102, 255, 29, 39, 241, 180, 86, 217, 165, 233, 14, 233, 199, 175, 185, 201,
    224, 35]
  length_eq := rfl

def zeroRoot : Digest where
  bytes := [0, 124, 124, 35, 4, 9, 66, 9, 189, 223, 227, 173, 238, 32, 6, 191, 82, 171, 21, 245]
  length_eq := rfl

def zeroRootSHA1 (data : Bytes) : Digest :=
  if data = zeroRootKey then zeroRootLeaf
  else if data = zeroRootLeaf.bytes ++ zeroRootLeaf.bytes then zeroRootLevel₁
  else if data = zeroRootLevel₁.bytes ++ zeroRootLevel₁.bytes then zeroRootLevel₂
  else if data = zeroRootLevel₂.bytes ++ zeroRootLevel₂.bytes then zeroRoot
  else ⟨List.replicate shaDigestLength 1, rfl⟩

def zeroRootVotes : List Transaction :=
  ⟨zeroRootKey, [89], 0⟩ :: [1, 2, 3, 4, 5, 6, 7].map Transaction.sample

theorem uniformRoot_zeroRootKey : Block.uniformRoot zeroRootSHA1 zeroRootKey = zeroRoot := by
  decide

/-- Eight voters with keys of 20 bytes stop a miner that received no block. -/
theorem zeroRoot_fails :
    ¬ ∀ SHA1 tail tr o, (supervised SHA1 tail).Run (.running (.initial tail)) tr o →
      (∀ m ∈ tr, ∀ b env, m.label.1 ≠ .block (some b) env) →
      (∀ m ∈ tr, ∀ t, m.label.1 = .transaction t → t.senderPublicKey.length = publicKeySize) →
      ¬ o.Failed := by
  intro h
  obtain ⟨tr, th, hrun, htakes, -, hvotes, -, hpoint, honly⟩ :=
    (Thread.initial_wellFormed Blockchain.sampleTail).exists_full zeroRootSHA1
      Blockchain.sampleTail rfl (List.cons_ne_nil _ _ : zeroRootVotes ≠ []) rfl
      (by simp [Thread.initial, Blockchain.new]) (by decide)
  have hwell := (Thread.wellFormed_invariant zeroRootSHA1 Blockchain.sampleTail).preserved.run hrun
    (Thread.initial_wellFormed _) (by simp)
  have hdata : th.newBlock.leafData = .ok zeroRootKey := by
    rw [(hwell.populated hpoint).leafData hvotes]
    rfl
  have hfail : th.mine zeroRootSHA1 = .error (.assertion .merkleRootByte) :=
    Thread.mine_fails hdata (by rw [uniformRoot_zeroRootKey]; rfl)
  have hrun' := (run_of_thread hrun).snoc (.mine hpoint hfail)
  refine h _ _ _ _ hrun' ?_ ?_ ⟨_, rfl, trivial⟩
  · simp only [List.forall_mem_append, List.forall_mem_map, List.forall_mem_singleton]
    exact ⟨htakes.noBlock, by simp⟩
  · have hkeys : ∀ t ∈ zeroRootVotes, t.senderPublicKey.length = publicKeySize := by decide
    simp only [List.forall_mem_append, List.forall_mem_map, List.forall_mem_singleton]
    exact ⟨fun m hm t ht => hkeys t (honly m hm t ht), by simp⟩

end Outcome

end OneVote
