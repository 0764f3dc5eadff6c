-- SUMMARY: The repair of a chain against a longer one: the ancestor walk, the removal and the splice.
import OneVote.Blockchain

/-!
# Repair

The loop of `repair_blockchain` declares a second `current_block` in its body
and initialises it from itself. The condition of the loop reads the outer
variable, which the body never assigns.
-/

namespace OneVote

/-- What a repair meets outside the chain. -/
structure RepairEnv where
  /-- `client->getBlock`; `none` is `NULL`. -/
  getBlock : CharPtr → Exec (Option Block)
  /-- What the uninitialised inner `current_block` holds in each iteration. -/
  stack : Nat → Option Block
  /-- The number of iterations for which the walk is followed. -/
  fuel : Nat

/-- A client without peers. -/
def RepairEnv.alone : RepairEnv := ⟨fun _ => .ok none, fun _ => none, 0⟩

/-- How the ancestor walk ends. -/
inductive Walk
  /-- at a block found at position `it`, with the blocks passed on the way -/
  | met (it : Nat) (blocksToAdd : List Block)
  /-- at a parent pointer that is `NULL` -/
  | noParent

/-- `get_parent_block_from_neighbor` -/
def getParentBlockFromNeighbor (b : Option Block) (env : RepairEnv) : Exec (Option Block) :=
  match b with
  | none => .error (.assertion .childBlock)
  | some b => do
      -- a hash that begins with a zero byte is taken for one that is not set
      if (← b.prevBlockSHA1.byte 0) = 0 then
        .error (.assertion .childPrevByte)
      else if (← b.finhash.byte 0) = 0 then
        .error (.assertion .childFinhashByte)
      else
        match ← env.getBlock b.prevBlockSHA1 with
        | none => .error (.assertion .parentMissing)
        | some parent => return some parent

/-- The caller's check for `NULL` is dead: the callee asserts instead. -/
theorem getParentBlockFromNeighbor_ne_null (b : Option Block) (env : RepairEnv) :
    getParentBlockFromNeighbor b env ≠ .ok none := by
  intro h
  cases b with
  | none => cases h
  | some child =>
      obtain ⟨x, -, h⟩ := Except.bind_eq_ok.1 h
      split at h
      · cases h
      obtain ⟨y, -, h⟩ := Except.bind_eq_ok.1 h
      split at h
      · cases h
      obtain ⟨answer, -, h⟩ := Except.bind_eq_ok.1 h
      cases answer <;> cases h

theorem getParentBlockFromNeighbor_eq_ok {b : Option Block} {env : RepairEnv} {parent : Block} :
    getParentBlockFromNeighbor b env = .ok (some parent) ↔
      ∃ child x y, b = some child ∧ child.prevBlockSHA1.byte 0 = .ok x ∧ x ≠ 0 ∧
        child.finhash.byte 0 = .ok y ∧ y ≠ 0 ∧
        env.getBlock child.prevBlockSHA1 = .ok (some parent) := by
  constructor
  · intro h
    cases b with
    | none => cases h
    | some child =>
        obtain ⟨x, hx, h⟩ := Except.bind_eq_ok.1 h
        split at h
        · cases h
        rename_i hx0
        obtain ⟨y, hy, h⟩ := Except.bind_eq_ok.1 h
        split at h
        · cases h
        rename_i hy0
        obtain ⟨answer, hanswer, h⟩ := Except.bind_eq_ok.1 h
        cases answer with
        | none => cases h
        | some c =>
            cases h
            exact ⟨child, x, y, rfl, hx, hx0, hy, hy0, hanswer⟩
  · intro h
    rcases h with ⟨child, x, y, rfl, hx, hx0, hy, hy0, hanswer⟩
    unfold getParentBlockFromNeighbor
    dsimp only
    rw [hx, Except.ok_bind, if_neg hx0, hy, Except.ok_bind, if_neg hy0, hanswer]
    rfl

/-- Looking for a parent fails on an access, on one of its own assertions, or in
the request. -/
theorem raises_getParentBlockFromNeighbor {P : Stop → Prop} (hassert : ∀ a ∈ [Assertion.childBlock,
    .childPrevByte, .childFinhashByte, .parentMissing], P (.assertion a))
    (haccess : ∀ e, e.IsAccess → P e) {env : RepairEnv}
    (hget : ∀ hash, (env.getBlock hash).Raises P)
    (child : Option Block) : (getParentBlockFromNeighbor child env).Raises P := by
  cases child with
  | none => exact Except.raises_error (hassert _ (by simp))
  | some child =>
      refine ((CharPtr.raises_byte child.prevBlockSHA1 0).mono haccess).bind fun x _ => ?_
      split
      · exact Except.raises_error (hassert _ (by simp))
      refine ((CharPtr.raises_byte child.finhash 0).mono haccess).bind fun y _ => ?_
      split
      · exact Except.raises_error (hassert _ (by simp))
      refine (hget child.prevBlockSHA1).bind fun answer _ => ?_
      cases answer with
      | none => exact Except.raises_error (hassert _ (by simp))
      | some parent => exact Except.raises_ok _ _

namespace Blockchain

/-- The ancestor walk from iteration `i` on, for at most `fuel` iterations. The
outer `current_block` is the same in every iteration. -/
def ancestorWalk (bc : Blockchain) (env : RepairEnv) (currentBlock : Block) :
    Nat → Nat → List Block → Exec Walk
  | 0, _, _ => .error .outOfFuel
  | fuel + 1, i, blocksToAdd => do
      match ← bc.checkIfBlockInChain currentBlock with
      | some it => return .met it blocksToAdd
      | none =>
          -- the parent goes to the inner `current_block`, the outer one stays
          match ← getParentBlockFromNeighbor (env.stack i) env with
          | none => return .noParent
          | some _ => ancestorWalk bc env currentBlock fuel (i + 1) (blocksToAdd ++ [currentBlock])

/-- `repair_blockchain`: its result, the chain after it, and the transactions
it pushes. -/
def repairBlockchain (bc : Blockchain) (b : Block) (env : RepairEnv) :
    Exec (Bool × Blockchain × List Transaction) := do
  match ← bc.ancestorWalk env b env.fuel 0 [] with
  | .noParent => return (false, bc, [])
  | .met it blocksToAdd =>
      let (bc, pushed) ← removeBlocks it bc
      let bc ← blocksToAdd.foldlM addTransactionsToSet bc
      return (true, { bc with blocks := blocksToAdd ++ bc.blocks }, pushed)

/-! ## When a repair returns -/

theorem ancestorWalk_found {bc : Blockchain} {env : RepairEnv} {b : Block} {it : Nat}
    (h : bc.checkIfBlockInChain b = .ok (some it)) (fuel i : Nat) (acc : List Block) :
    bc.ancestorWalk env b (fuel + 1) i acc = .ok (.met it acc) := by
  rw [ancestorWalk, h]
  rfl

/-- No walk from an unknown block ends: the next iteration looks for the same
block in the same chain. -/
theorem ancestorWalk_unknown {bc : Blockchain} {env : RepairEnv} {b : Block}
    (h : bc.checkIfBlockInChain b = .ok none) (fuel i : Nat) (acc : List Block) (w : Walk) :
    bc.ancestorWalk env b fuel i acc ≠ .ok w := by
  induction fuel generalizing i acc with
  | zero => simp [ancestorWalk]
  | succ fuel ih =>
      rw [ancestorWalk, h, Except.ok_bind]
      intro hok
      obtain ⟨parent?, hparent, hrest⟩ := Except.bind_eq_ok.1 hok
      cases parent? with
      | some parent => exact ih (i + 1) (acc ++ [b]) hrest
      | none =>
          exact absurd hparent (getParentBlockFromNeighbor_ne_null _ _)

/-- A walk that ends stands at the block it started from. -/
theorem ancestorWalk_eq_ok {bc : Blockchain} {env : RepairEnv} {b : Block} {w : Walk} {fuel : Nat} :
    bc.ancestorWalk env b fuel 0 [] = .ok w ↔
      0 < fuel ∧ ∃ it, bc.checkIfBlockInChain b = .ok (some it) ∧ w = .met it [] := by
  constructor
  · intro h
    cases fuel with
    | zero => simp [ancestorWalk] at h
    | succ fuel =>
        refine ⟨Nat.succ_pos fuel, ?_⟩
        cases hcheck : bc.checkIfBlockInChain b with
        | error e => simp [ancestorWalk, hcheck, Except.error_bind] at h
        | ok it? =>
            cases it? with
            | none => exact absurd h (ancestorWalk_unknown hcheck _ _ _ w)
            | some it =>
                rw [ancestorWalk_found hcheck] at h
                exact ⟨it, rfl, (Except.ok.inj h).symm⟩
  · intro h
    rcases h with ⟨hpos, it, hcheck, rfl⟩
    obtain ⟨n, rfl⟩ := Nat.exists_eq_succ_of_ne_zero hpos.ne'
    exact ancestorWalk_found hcheck n 0 []

/-- A repair returns only for a block that is in the chain already. It then
returns true, adds nothing, and removes what stands above that block. -/
theorem repairBlockchain_eq_ok {bc bc' : Blockchain} {b : Block} {env : RepairEnv} {r : Bool}
    {pushed : List Transaction} :
    bc.repairBlockchain b env = .ok (r, bc', pushed) ↔
      0 < env.fuel ∧ ∃ it, bc.checkIfBlockInChain b = .ok (some it) ∧
        (∀ c ∈ bc.blocks.take it, c.Removable) ∧ r = true ∧ bc' = bc.truncated it ∧
        pushed = (bc.blocks.take it).flatMap (·.requeued) := by
  unfold repairBlockchain
  rw [Except.bind_eq_ok]
  simp only [ancestorWalk_eq_ok]
  constructor
  · intro h
    rcases h with ⟨w, ⟨hpos, it, hcheck, rfl⟩, hrest⟩
    obtain ⟨⟨bc₁, pushed₁⟩, hremove, hrest⟩ := Except.bind_eq_ok.1 hrest
    obtain ⟨-, hrem, rfl, rfl⟩ := removeBlocks_eq_ok.1 hremove
    cases hrest
    exact ⟨hpos, it, hcheck, hrem, rfl, rfl, rfl⟩
  · intro h
    rcases h with ⟨hpos, it, hcheck, hrem, rfl, rfl, rfl⟩
    have hlt := lt_of_checkIfBlockInChain hcheck
    refine ⟨_, ⟨hpos, it, hcheck, rfl⟩, ?_⟩
    dsimp only
    rw [removeBlocks_eq_ok.2 ⟨hlt.le, hrem, rfl, rfl⟩]
    rfl

/-! ## Adopting a fork -/

/-- `b` is the newest block of an honest fork: its ancestors `newer`, newest
first and `b` among them, are unknown and lead to the block `meet`, which the
chain holds at position `it`. -/
structure Fork (bc : Blockchain) (getBlock : CharPtr → Exec (Option Block)) (b : Block)
    (newer : List Block) (meet : Block) (it : Nat) : Prop where
  head : newer.head? = some b
  linked : (newer ++ [meet]).IsChain fun c d => sameHash d.finhash c.prevBlockSHA1 = .ok true
  supplied : (newer ++ [meet]).IsChain fun c d => getBlock c.prevBlockSHA1 = .ok (some d)
  distinct : (newer ++ [meet]).Pairwise fun c d => sameHash c.finhash d.finhash = .ok false
  unknown : ∀ c ∈ newer, bc.checkIfBlockInChain c = .ok none
  known : bc.checkIfBlockInChain meet = .ok (some it)
  populated : ∀ c ∈ newer ++ bc.nonGenesis, c.Populated
  oneVote : ((newer ++ (bc.blocks.drop it).dropLast).flatMap (·.senders)).Nodup
  numbered : b.blockNumber.toNat = (newer ++ bc.blocks.drop it).length
  longer : ∀ head, bc.getHeadBlock = .ok head → head.blockNumber < b.blockNumber

/-- The repair returns true, for some number of iterations, and leaves the
adopted chain with its voters and its length. -/
def AdoptsFork (bc : Blockchain) (getBlock : CharPtr → Exec (Option Block))
    (stack : Nat → Option Block) (b : Block) (newer : List Block) (it : Nat) : Prop :=
  ∃ fuel bc' pushed,
    bc.repairBlockchain b ⟨getBlock, stack, fuel⟩ = .ok (true, bc', pushed) ∧
      bc'.blocks = newer ++ bc.blocks.drop it ∧
      bc'.voted = (bc'.nonGenesis.flatMap (·.senders)).toFinset ∧
      bc'.chainLength = b.blockNumber.toNat

theorem not_adoptsFork_of_unknown {bc : Blockchain} {b : Block}
    (h : bc.checkIfBlockInChain b = .ok none) (getBlock : CharPtr → Exec (Option Block))
    (stack : Nat → Option Block) (newer : List Block) (it : Nat) :
    ¬ bc.AdoptsFork getBlock stack b newer it := by
  rintro ⟨fuel, bc', pushed, hrepair, -⟩
  obtain ⟨-, pos, hfound, -⟩ := repairBlockchain_eq_ok.1 hrepair
  rw [hfound] at h
  cases h

/-- No fork is ever adopted, whatever the uninitialised variable holds: the
walk does not end. -/
theorem Fork.not_adopted {bc : Blockchain} {getBlock : CharPtr → Exec (Option Block)} {b : Block}
    {newer : List Block} {meet : Block} {it : Nat} (h : bc.Fork getBlock b newer meet it)
    (stack : Nat → Option Block) : ¬ bc.AdoptsFork getBlock stack b newer it :=
  not_adoptsFork_of_unknown (h.unknown b (List.mem_of_mem_head? h.head)) getBlock stack newer it

/-! ### A fork of two blocks -/

def sampleHash (x : UInt8) : Bytes := List.replicate shaDigestLength x

def sampleTail : GenesisTail := Vector.replicate 7 0

/-- A block on the constructed blockchain. -/
def sampleFirst : Block := Block.sample 1 (startingBlock ++ sampleTail.toList) (sampleHash 101) 2

/-- Two blocks above genesis, with hashes of repeated bytes. -/
def sampleChain : Blockchain where
  blocks := [Block.sample 9 (sampleHash 101) (sampleHash 102) 3, sampleFirst, genesis sampleTail]
  chainLength := 3
  voted := ((Block.sample 9 [] [] 3).senders ++ sampleFirst.senders).toFinset

/-- Two blocks on the second block of `sampleChain`, newest first. -/
def sampleFork : List Block :=
  [Block.sample 25 (sampleHash 103) (sampleHash 104) 4,
    Block.sample 17 (sampleHash 101) (sampleHash 103) 3]

/-- A peer that serves every block of the fork and of the chain. -/
def samplePeer (hash : CharPtr) : Exec (Option Block) := do
  let key ← hash.read publicKeySize
  return (sampleFork ++ sampleChain.blocks).find? fun c =>
    c.finhash.map (·.take publicKeySize) = some key

theorem sampleFork_fork :
    sampleChain.Fork samplePeer (Block.sample 25 (sampleHash 103) (sampleHash 104) 4) sampleFork
      sampleFirst 1 where
  head := rfl
  linked := by decide
  supplied := by decide
  distinct := by decide
  unknown := by decide
  known := by decide
  populated := by decide
  oneVote := by decide
  numbered := by decide
  longer := by
    intro head hhead
    cases hhead
    decide

theorem sampleFork_not_adopted :
    ¬ sampleChain.AdoptsFork samplePeer (fun _ => none)
      (Block.sample 25 (sampleHash 103) (sampleHash 104) 4) sampleFork 1 :=
  Fork.not_adopted sampleFork_fork _

/-- The fork meets every condition and is still not adopted. -/
theorem sampleFork_counterexample :
    ¬ (sampleChain.Fork samplePeer (Block.sample 25 (sampleHash 103) (sampleHash 104) 4) sampleFork
        sampleFirst 1 →
      sampleChain.AdoptsFork samplePeer (fun _ => none)
        (Block.sample 25 (sampleHash 103) (sampleHash 104) 4) sampleFork 1) := by
  intro h
  have hunknown : sampleChain.checkIfBlockInChain
      (Block.sample 25 (sampleHash 103) (sampleHash 104) 4) = .ok none := by decide
  exact not_adoptsFork_of_unknown hunknown _ _ _ _ (h sampleFork_fork)

end Blockchain

end OneVote
