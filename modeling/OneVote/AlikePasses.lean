-- SUMMARY: One pass of two miners in memory that nothing was written to, and when both read only what was filled.
import OneVote.AlikeChains
import OneVote.Iteration
import OneVote.MessageBounds

/-!
# Alike passes

A pass decodes a message into a block whose other entries are in memory as they
were, and works on a working block of which the same is true. Two miners that read
only filled entries come out of a pass alike.
-/

namespace OneVote

/-- What one pass of the loop finds behind the unassigned entries of the block
that it takes and of the working block. The next pass may find something else. -/
structure PassMemory where
  decoded : Entries
  working : Entries

/-- What the memory holds behind the hash fields of a message. A field that is too
short is read on into it. -/
structure FieldMemory where
  prevBlockSHA1 : Vector UInt8 publicKeySize
  merkleRoot : Vector UInt8 publicKeySize
  finhash : Vector UInt8 publicKeySize

def FieldMemory.all (x : UInt8) : FieldMemory :=
  ⟨Vector.replicate _ x, Vector.replicate _ x, Vector.replicate _ x⟩

/-- The pointer, with `behind` in memory after what it leads to. -/
def CharPtr.followedBy (p : CharPtr) (behind : Vector UInt8 publicKeySize) : CharPtr :=
  p.map (· ++ behind.toList)

def Block.followedBy (b : Block) (fields : FieldMemory) : Block :=
  { b with
    prevBlockSHA1 := b.prevBlockSHA1.followedBy fields.prevBlockSHA1
    merkleRoot := b.merkleRoot.followedBy fields.merkleRoot
    finhash := b.finhash.followedBy fields.finhash }

/-- What one pass takes from the network, before the message is decoded. -/
structure Arrival where
  message : Option BlockMsg
  fields : FieldMemory
  env : RepairEnv
  /-- The client has a peer to broadcast to. -/
  hasPeers : Bool
  popped : Transaction

namespace Arrival

/-- The block of the message, with nothing behind the entries that it does not fill. -/
def decode (a : Arrival) (m : BlockMsg) : Exec Block := (·.followedBy a.fields) <$> decodeBlock m

/-- The block of the pass, as `decode_block` leaves it in memory. -/
def block (a : Arrival) (p : PassMemory) : Exec (Option Block) :=
  match a.message with
  | none => .ok none
  | some m => (fun b => some (b.inMemory p.decoded)) <$> a.decode m

/-- The validity code of the block of the pass. -/
def check (a : Arrival) (p : PassMemory) (bc : Blockchain) : Exec (Option BlockValidityCode) := do
  match ← a.block p with
  | none => return none
  | some b => some <$> bc.checkBlockValidity b

/-- The surroundings of the repair of the pass. A walk makes one iteration at least. -/
def repairEnv (a : Arrival) : RepairEnv := { a.env with fuel := a.env.fuel + 1 }

/-- `BroadcastBlock` encodes the block for every peer. -/
def send (a : Arrival) (b : Block) : Exec Unit :=
  if a.hasPeers then (fun _ => ()) <$> encodeBlock b else .ok ()

/-- What the broadcasts among the effects read. -/
def sends (a : Arrival) : List Effect → Exec Unit
  | [] => .ok ()
  | .broadcastBlock b :: rest => a.send b >>= fun _ => a.sends rest
  | .broadcastTransaction _ :: rest | .push _ :: rest => a.sends rest

end Arrival

namespace Thread

/-- The thread at its start, in the given memory. -/
def initialIn (tail : GenesisTail) (entries : Entries) : Thread :=
  ⟨.onGenesis tail entries [] 1 ∅, .new, false, .head⟩

def inMemory (th : Thread) (entries : Entries) : Thread :=
  { th with newBlock := th.newBlock.inMemory entries }

/-- The position at which the repair against `b` finds it, if a block above has more
than eight transactions by its `max_ind`. -/
def overrun (th : Thread) (b : Block) : Exec (Option Nat) := do
  match ← th.bc.checkBlockValidity b with
  | .prevBlockNonmatch =>
      let head ← th.bc.getHeadBlock
      if head.blockNumber < b.blockNumber ∧ b.blockNumber ≤ 5 then
        let it? ← th.bc.checkIfBlockInChain b
        return it?.filter fun it =>
          (th.bc.blocks.take it).any fun c => decide (numTransactionsPerBlock < c.maxInd)
      else return none
  | _ => return none

/-- `handleBlock`, going on where a repair copies what lies behind the entries of a
removed block. The copies are for the queue and are not read in the pass. -/
def receive (th : Thread) (b : Block) (env : RepairEnv) : Exec (Thread × Bool × List Effect) := do
  match ← th.overrun b with
  | some it =>
      -- what the removal pushes is left out: nothing of it is read in this pass
      let (th, ts) ← { th with bc := th.bc.truncated it }.reset
      return (th, false, .broadcastBlock b :: ts.map .push)
  | none => th.handleBlock b env

/-- The part of a pass that handles its block. -/
def receiveNext (th : Thread) (env : RepairEnv) :
    Option Block → Exec (Thread × Bool × List Effect)
  | none => .ok (th, false, [])
  | some b => th.receive b env

/-- One pass of the loop in the given memory. A working block that is new in the
pass is not read in it. -/
def pass (SHA1 : Bytes → Digest) (th : Thread) (p : PassMemory) (a : Arrival) : Exec Thread := do
  let b? ← a.block p
  let (th, docontinue, effects) ← (th.inMemory p.working).receiveNext a.repairEnv b?
  -- the thread encodes what it broadcasts before it goes on
  let _ ← a.sends effects
  if docontinue then return { th with point := .head }
  else
    let (th, effects) ← ({ th with point := th.afterBlock } : Thread).afterReceive SHA1 a.popped
    let _ ← a.sends effects
    return th

/-- `verify_transactions` reads only entries that the message fills: it has all
eight transactions, its block does not link to the chain, or one of its voters
has voted. -/
def VerifiesAssigned (th : Thread) (m : BlockMsg) (b : Block) : Prop :=
  numTransactionsPerBlock ≤ m.transactionMsg.length ∨ ¬ th.bc.Links b.prevBlockSHA1 ∨
    ∃ t ∈ m.votes, t.senderPublicKey ∈ th.bc.voted

/-- `BroadcastBlock` reads only entries that the message fills: there is no peer, the
block does not make a repair return, or its `max_ind` stays within them. -/
def SendsAssigned (th : Thread) (hasPeers : Bool) (m : BlockMsg) (b : Block) : Prop :=
  hasPeers = false ∨ ¬ th.ClaimsHigher b ∨
    min b.maxInd.toNat numTransactionsPerBlock ≤ m.transactionMsg.length

/-- Of the block of the pass only entries that its message fills are read. -/
def ReadsAssigned (th : Thread) (a : Arrival) : Prop :=
  ∀ m b, a.message = some m → a.decode m = .ok b →
    th.VerifiesAssigned m b ∧ th.SendsAssigned a.hasPeers m b

end Thread

/-! ## What is read of a message -/

namespace CharPtr

theorem read_followedBy (s : Bytes) (behind : Vector UInt8 publicKeySize) :
    ∃ bs, ((ofString s).followedBy behind).read publicKeySize = .ok bs := by
  refine ⟨_, if_pos ?_⟩
  simp only [List.length_append, Vector.length_toList]
  omega

end CharPtr

namespace Arrival

variable {a : Arrival}

theorem check_of_message {m : BlockMsg} (hmsg : a.message = some m) {b : Block}
    (hb : a.decode m = .ok b) (p : PassMemory) (bc : Blockchain) :
    a.check p bc = some <$> bc.checkBlockValidity (b.inMemory p.decoded) := by
  unfold check block
  rw [hmsg]
  dsimp only
  rw [hb]
  rfl

theorem decode_eq_ok {m : BlockMsg} {b : Block} :
    a.decode m = .ok b ↔ m.transactionMsg.length ≤ numTransactionsPerBlock ∧
      ∃ arr, arr.toList = m.votes.map some ++
        List.replicate (numTransactionsPerBlock - m.transactionMsg.length) none ∧
          b = (m.decoded arr).followedBy a.fields := by
  unfold decode
  rw [Except.map_eq_ok]
  simp only [BlockMsg.decodeBlock_eq_ok]
  constructor
  · rintro ⟨b, ⟨hle, arr, harr, rfl⟩, rfl⟩
    exact ⟨hle, arr, harr, rfl⟩
  · rintro ⟨hle, arr, harr, rfl⟩
    exact ⟨_, ⟨hle, arr, harr, rfl⟩, rfl⟩

/-- The entries of a decoded block: the transactions of the message, and the rest. -/
theorem toList_decode {m : BlockMsg} {b : Block} (hb : a.decode m = .ok b) :
    b.transactionArray.toList = m.votes.map some ++
      List.replicate (numTransactionsPerBlock - m.transactionMsg.length) none := by
  obtain ⟨-, arr, harr, rfl⟩ := decode_eq_ok.1 hb
  exact harr

theorem toList_decode_of_lt {m : BlockMsg} {b : Block} (hb : a.decode m = .ok b)
    (hlt : m.transactionMsg.length < numTransactionsPerBlock) :
    ∃ n, b.transactionArray.toList = m.votes.map some ++ none :: List.replicate n none := by
  obtain ⟨n, hn⟩ : ∃ n, numTransactionsPerBlock - m.transactionMsg.length = n + 1 :=
    Nat.exists_eq_add_one.2 (Nat.sub_pos_of_lt hlt)
  refine ⟨n, (toList_decode hb).trans ?_⟩
  rw [hn, List.replicate_succ]

theorem entries_decode {m : BlockMsg} {b : Block} (hb : a.decode m = .ok b) {n : Nat}
    (hn : n ≤ m.transactionMsg.length) : b.entries n = .ok (m.votes.take n) := by
  have hlen : m.votes.length = m.transactionMsg.length := List.length_map _
  rw [Block.entries_eq_ok, toList_decode hb, List.length_take, hlen,
    List.take_append_of_le_length (by rwa [List.length_map, hlen])]
  exact ⟨Nat.min_eq_left hn, List.map_take.symm⟩

theorem populated_decode {m : BlockMsg} {b : Block} (hb : a.decode m = .ok b)
    (hfull : numTransactionsPerBlock ≤ m.transactionMsg.length) : b.Populated := by
  have hall := entries_decode hb hfull
  exact (Block.entries_all.1 hall).1

/-! ### Broadcasts -/

@[simp] theorem sends_nil : a.sends [] = .ok () := rfl
@[simp] theorem sends_broadcastBlock (b : Block) (effects : List Effect) :
    a.sends (.broadcastBlock b :: effects) = a.send b >>= fun _ => a.sends effects := rfl

@[simp] theorem sends_map_push (ts : List Transaction) (effects : List Effect) :
    a.sends (ts.map .push ++ effects) = a.sends effects := by
  induction ts with
  | nil => rfl
  | cons t rest ih => exact ih

theorem sends_pushes (ts : List Transaction) : a.sends (ts.map .push) = .ok () := by
  rw [← List.append_nil (ts.map Effect.push), sends_map_push, sends_nil]

/-- Among what is pushed the broadcast of one block is what reads. -/
theorem sends_block (pushed ts : List Transaction) (b : Block) :
    a.sends (pushed.map .push ++ .broadcastBlock b :: ts.map .push) = a.send b := by
  rw [sends_map_push, sends_broadcastBlock, sends_pushes]
  cases a.send b <;> rfl

end Arrival

/-- Two blocks that the two miners take for one: they are judged alike, and are
the same if they are accepted. If they are sent after a repair, they are sent alike. -/
structure Interchangeable (th th' : Thread) (a : Arrival) (b b' : Block) : Prop where
  fields : ∃ arr, b' = { b with transactionArray := arr }
  check : th'.bc.checkBlockValidity b' = th.bc.checkBlockValidity b
  accepted : th.bc.checkBlockValidity b = .ok .ok → b' = b
  sent : th.ClaimsHigher b → a.send b' = a.send b

namespace Blockchain

/-- A known voter among entries that can be read ends the check on the voters. -/
theorem verifyEntries_of_voted {voted : Finset Bytes} {n : Nat} {l : List (Option Transaction)}
    {ts : List Transaction} (h : Block.readEntries n l = .ok ts)
    (hvoted : ∃ t ∈ ts, t.senderPublicKey ∈ voted) :
    verifyEntries voted l = .ok false := by
  induction l generalizing n ts with
  | nil =>
      obtain ⟨t, ht, -⟩ := hvoted
      cases n with
      | zero =>
          cases h
          cases ht
      | succ n => cases h
  | cons t? rest ih =>
      obtain ⟨t, ht, hmem⟩ := hvoted
      cases n with
      | zero =>
          cases h
          cases ht
      | succ n =>
          cases t? with
          | none => cases h
          | some u =>
              obtain ⟨us, hus, rfl⟩ := Except.map_eq_ok.1 h
              rw [verifyEntries]
              split
              · rfl
              · rename_i hnot
                rcases List.mem_cons.1 ht with rfl | ht
                · exact absurd hmem hnot
                · exact ih hus ⟨t, ht, hmem⟩

theorem verifyEntries_append {voted : Finset Bytes} {ts : List Transaction}
    (h : ∀ t ∈ ts, t.senderPublicKey ∉ voted) (l : List (Option Transaction)) :
    verifyEntries voted (ts.map some ++ l) = verifyEntries voted l := by
  induction ts with
  | nil => rfl
  | cons t rest ih =>
      obtain ⟨hfirst, hrest⟩ := List.forall_mem_cons.1 h
      rw [List.map_cons, List.cons_append, verifyEntries, if_neg hfirst, ih hrest]

theorem verifyTransactions_inMemory {bc : Blockchain} {a : Arrival} {m : BlockMsg} {b : Block}
    (hb : a.decode m = .ok b) (hvoted : ∃ t ∈ m.votes, t.senderPublicKey ∈ bc.voted)
    (entries : Entries) : bc.verifyTransactions (b.inMemory entries) = .ok false := by
  have hlen : m.votes.length = m.transactionMsg.length := List.length_map _
  have hfilled := Arrival.entries_decode hb le_rfl
  rw [List.take_of_length_le hlen.le] at hfilled
  exact verifyEntries_of_voted (Block.entries_inMemory hfilled entries) hvoted

end Blockchain

namespace Thread

theorem claimsHigher_inMemory {th : Thread} {b : Block} {entries : Entries} :
    th.ClaimsHigher (b.inMemory entries) ↔ th.ClaimsHigher b := by
  unfold ClaimsHigher
  rw [Blockchain.checkBlockValidity_eq_nonmatch, Blockchain.checkBlockValidity_eq_nonmatch]
  rfl

theorem interchangeable_inMemory {tail : GenesisTail} {th th' : Thread}
    (h : Blockchain.Alike tail th.bc th'.bc) {a : Arrival} {m : BlockMsg} {b : Block}
    (hb : a.decode m = .ok b) (hverify : th.VerifiesAssigned m b)
    (hsend : th.SendsAssigned a.hasPeers m b) (entries entries' : Entries) :
    Interchangeable th th' a (b.inMemory entries) (b.inMemory entries') := by
  have hcheck : ∀ (hsame : th.bc.Links b.prevBlockSHA1 →
      th.bc.verifyTransactions (b.inMemory entries') =
        th.bc.verifyTransactions (b.inMemory entries)),
      th'.bc.checkBlockValidity (b.inMemory entries') =
        th.bc.checkBlockValidity (b.inMemory entries) :=
    fun hsame => h.checkBlockValidity rfl hsame
  by_cases hfull : numTransactionsPerBlock ≤ m.transactionMsg.length
  · -- no entry is left to the memory
    have hpop := Arrival.populated_decode hb hfull
    rw [hpop.inMemory, hpop.inMemory] at hcheck ⊢
    exact ⟨⟨_, rfl⟩, hcheck fun _ => rfl, fun _ => rfl, fun _ => rfl⟩
  have hsent : th.ClaimsHigher (b.inMemory entries) →
      a.send (b.inMemory entries') = a.send (b.inMemory entries) := by
    intro hclaims
    unfold Arrival.send
    rcases hsend with halone | hlower | hmax
    · rw [halone]
      rfl
    · exact absurd (claimsHigher_inMemory.1 hclaims) hlower
    · -- the entries that are encoded come from the message
      have hle : b.maxInd.toNat ≤ m.transactionMsg.length := by omega
      have hts := Block.entries_inMemory (Arrival.entries_decode hb hle)
      have hencode : encodeBlock (b.inMemory entries') = encodeBlock (b.inMemory entries) := by
        unfold encodeBlock
        have hentries : (b.inMemory entries').entries (b.inMemory entries').maxInd.toNat =
            (b.inMemory entries).entries (b.inMemory entries).maxInd.toNat :=
          (hts entries').trans (hts entries).symm
        rw [hentries]
        rfl
      rw [hencode]
  rcases hverify with hfull' | hlinks | hvoted
  · exact absurd hfull' hfull
  · -- the check ends before it comes to the entries
    refine ⟨⟨_, rfl⟩, hcheck fun hyes => absurd hyes hlinks, fun hok => ?_, hsent⟩
    obtain ⟨head, hhead, hsame, -⟩ := Blockchain.checkBlockValidity_eq_ok.1 hok
    exact absurd ⟨head, hhead, hsame⟩ hlinks
  · -- or at an entry that the message fills
    have hfalse := Blockchain.verifyTransactions_inMemory hb hvoted
    refine ⟨⟨_, rfl⟩, hcheck fun _ => by rw [hfalse, hfalse], fun hok => ?_, hsent⟩
    obtain ⟨head, hhead, hsame, hfresh⟩ := Blockchain.checkBlockValidity_eq_ok.1 hok
    rw [← Blockchain.verifyTransactions_eq_true, hfalse] at hfresh
    cases hfresh

end Thread

/-! ## Passes of two miners -/

namespace Thread

/-- The states of two miners whose tails are the same. -/
structure Alike (tail : GenesisTail) (th th' : Thread) : Prop where
  bc : Blockchain.Alike tail th.bc th'.bc
  newBlock : th.newBlock.Alike th'.newBlock
  quotafull : th'.quotafull = th.quotafull
  full : th.quotafull = true → th.newBlock.maxInd = numTransactionsPerBlock

variable {SHA1 : Bytes → Digest} {tail : GenesisTail} {th th' : Thread}

theorem initialIn_alike (tail : GenesisTail) (entries entries' : Entries) :
    Alike tail (.initialIn tail entries) (.initialIn tail entries') where
  bc := .mk entries entries' [] 1 ∅
  newBlock := Block.new_alike
  quotafull := rfl
  full := by
    intro hfull
    cases hfull

theorem Alike.inMemory (h : Alike tail th th') (entries entries' : Entries) :
    Alike tail (th.inMemory entries) (th'.inMemory entries') where
  bc := h.bc
  newBlock := h.newBlock.inMemory entries entries'
  quotafull := h.quotafull
  full := h.full

theorem Alike.at_point (h : Alike tail th th') (point point' : Point) :
    Alike tail { th with point := point } { th' with point := point' } :=
  ⟨h.bc, h.newBlock, h.quotafull, h.full⟩

/-- A thread that starts over. -/
theorem Alike.restart {bc bc' : Blockchain} (h : Blockchain.Alike tail bc bc')
    (point point' : Point) : Alike tail ⟨bc, .new, false, point⟩ ⟨bc', .new, false, point'⟩ where
  bc := h
  newBlock := Block.new_alike
  quotafull := rfl
  full := by
    intro hfull
    cases hfull

theorem Alike.reset (h : Alike tail th th') {bc bc' : Blockchain}
    (hbc : Blockchain.Alike tail bc bc') :
    (reset { th with bc := bc }).Rel (fun r r' => Alike tail r.1 r'.1 ∧ r'.2 = r.2)
      (reset { th' with bc := bc' }) := by
  obtain ⟨ts, hts, hts'⟩ := h.newBlock.entries
  unfold Thread.reset
  dsimp only
  rw [hts, hts']
  exact .ok ⟨.restart hbc _ _, rfl⟩

/-- The threads after a step of the two miners, with its flag and its effects: the
flags are the same, and what is sent is read alike. -/
def AlikeAfter (tail : GenesisTail) (a : Arrival) (r r' : Thread × Bool × List Effect) : Prop :=
  Alike tail r.1 r'.1 ∧ r'.2.1 = r.2.1 ∧ a.sends r'.2.2 = a.sends r.2.2

theorem Alike.handleBlock (h : Alike tail th th') {a : Arrival} {b b' : Block}
    (hb : Interchangeable th th' a b b') (env : RepairEnv) :
    (th.handleBlock b env).Rel (AlikeAfter tail a) (th'.handleBlock b' env) := by
  unfold Thread.handleBlock
  rw [hb.check]
  refine Except.Rel.bind_same _ fun code hcode => ?_
  cases code with
  | ok =>
      -- an accepted block is the same for both, entries included
      obtain rfl := hb.accepted hcode
      refine (h.bc.addBlock b').bind ?_
      rintro ⟨bc, c⟩ ⟨bc', c'⟩ ⟨hbc, hc⟩
      obtain rfl : c' = c := hc
      dsimp only
      split
      · exact .error _
      · refine (h.reset hbc).bind ?_
        rintro ⟨s, ts⟩ ⟨s', ts'⟩ ⟨hs, hts⟩
        obtain rfl : ts' = ts := hts
        exact .ok ⟨hs, rfl, rfl⟩
  | transactionInvalid => exact .ok ⟨h, rfl, rfl⟩
  | prevBlockNonmatch =>
      obtain ⟨arr, hfields⟩ := hb.fields
      have hhead := h.bc.getHeadBlock.imp (S := fun head head' =>
        th.bc.getHeadBlock = .ok head ∧ head'.blockNumber = head.blockNumber)
        fun head head' hhead _ hsame => ⟨hhead, hsame.2.1⟩
      refine hhead.bind fun head head' hsame => ?_
      obtain ⟨hhead, hheadNumber⟩ := hsame
      have hnumber : b'.blockNumber = b.blockNumber := by rw [hfields]
      rw [hheadNumber, hnumber]
      split
      · rename_i hhigher
        split
        · exact .error _
        · rename_i hsmall
          have hfin : b'.finhash = b.finhash := by rw [hfields]
          have hrepair := (h.bc.repairBlockchain hfin env).imp (S := fun r r' =>
            (∃ it, th.bc.checkIfBlockInChain b = .ok (some it)) ∧ r'.1 = r.1 ∧
              Blockchain.Alike tail r.2.1 r'.2.1) fun r r' hr _ hsame => by
                obtain ⟨-, it, hfound, -⟩ := Blockchain.repairBlockchain_eq_ok.1 hr
                exact ⟨⟨it, hfound⟩, hsame⟩
          refine hrepair.bind ?_
          rintro ⟨repaired, bc, pushed⟩ ⟨repaired', bc', pushed'⟩ ⟨⟨it, hfound⟩, hrepaired, hbc⟩
          obtain rfl : repaired' = repaired := hrepaired
          dsimp only
          split
          · -- the repair returned, so the block claims a higher number and is encoded alike
            have hclaims :=
              claimsHigher_of_found hcode hhead hhigher (UInt32.not_lt.1 hsmall) hfound
            refine (h.reset hbc).bind fun s s' hs => .ok ⟨hs.1, rfl, ?_⟩
            dsimp only
            rw [Arrival.sends_block, Arrival.sends_block, hb.sent hclaims]
          · refine .ok ⟨⟨hbc, h.newBlock, h.quotafull, h.full⟩, rfl, ?_⟩
            dsimp only
            rw [Arrival.sends_pushes, Arrival.sends_pushes]
      · exact .ok ⟨h, rfl, rfl⟩

/-- A known block that claims a higher number is removed down to, if a block above
it is read behind its entries. -/
theorem overrun_of_found {b head : Block} {it : Nat}
    (hcode : th.bc.checkBlockValidity b = .ok .prevBlockNonmatch)
    (hhead : th.bc.getHeadBlock = .ok head) (hhigher : head.blockNumber < b.blockNumber)
    (hsmall : b.blockNumber ≤ 5) (hfound : th.bc.checkIfBlockInChain b = .ok (some it)) :
    th.overrun b = .ok (if ∃ c ∈ th.bc.blocks.take it, numTransactionsPerBlock < c.maxInd
      then some it else none) := by
  unfold overrun
  rw [hcode, Except.ok_bind]
  dsimp only
  rw [hhead, Except.ok_bind, if_pos ⟨hhigher, hsmall⟩, hfound, Except.ok_bind]
  simp only [Option.filter, List.any_eq_true, decide_eq_true_eq]
  rfl

theorem overrun_eq_some {b : Block} {it : Nat} (h : th.overrun b = .ok (some it)) :
    th.bc.checkBlockValidity b = .ok .prevBlockNonmatch ∧
      (∃ head, th.bc.getHeadBlock = .ok head ∧ head.blockNumber < b.blockNumber) ∧
      b.blockNumber ≤ 5 ∧ th.bc.checkIfBlockInChain b = .ok (some it) ∧
      ∃ c ∈ th.bc.blocks.take it, numTransactionsPerBlock < c.maxInd := by
  obtain ⟨code, hcode, h⟩ := Except.bind_eq_ok.1 h
  cases code with
  | ok => cases h
  | transactionInvalid => cases h
  | prevBlockNonmatch =>
      obtain ⟨head, hhead, h⟩ := Except.bind_eq_ok.1 h
      split at h
      · rename_i hnumbers
        obtain ⟨it?, hfound, h⟩ := Except.bind_eq_ok.1 h
        obtain ⟨rfl, hany⟩ := Option.filter_eq_some_iff.1 (Except.pure_eq_ok.1 h)
        refine ⟨hcode, ⟨head, hhead, hnumbers.1⟩, hnumbers.2, hfound, ?_⟩
        simpa using hany
      · cases h

theorem Alike.overrun (h : Alike tail th th') {a : Arrival} {b b' : Block}
    (hb : Interchangeable th th' a b b') : th'.overrun b' = th.overrun b := by
  obtain ⟨arr, hfields⟩ := hb.fields
  have hnumber : b'.blockNumber = b.blockNumber := by rw [hfields]
  have hfin : b'.finhash = b.finhash := by rw [hfields]
  unfold Thread.overrun
  rw [hb.check, h.bc.checkIfBlockInChain hfin, hnumber]
  refine (Except.Rel.eq (Except.Rel.bind_same _ fun code _ => ?_)).symm
  cases code with
  | ok => exact .ok rfl
  | transactionInvalid => exact .ok rfl
  | prevBlockNonmatch =>
      refine h.bc.getHeadBlock.bind fun head head' hsame => ?_
      rw [hsame.2.1]
      split
      · refine Except.Rel.bind_same _ fun it? hfound => .ok ?_
        cases it? with
        | none => rfl
        | some it =>
            have htake := h.bc.take_blocks (Blockchain.lt_of_checkIfBlockInChain hfound)
            simp only [Option.filter, htake]
      · exact .ok rfl

theorem Alike.receive (h : Alike tail th th') {a : Arrival} {b b' : Block}
    (hb : Interchangeable th th' a b b') (env : RepairEnv) :
    (th.receive b env).Rel (AlikeAfter tail a) (th'.receive b' env) := by
  unfold Thread.receive
  rw [h.overrun hb]
  refine Except.Rel.bind_same _ fun it? hover => ?_
  cases it? with
  | none => exact h.handleBlock hb env
  | some it =>
      obtain ⟨hcode, ⟨head, hhead, hhigher⟩, hsmall, hfound, -⟩ := overrun_eq_some hover
      have hclaims := claimsHigher_of_found hcode hhead hhigher hsmall hfound
      have htrunc := h.bc.truncated (Blockchain.lt_of_checkIfBlockInChain hfound)
      refine (h.reset htrunc).bind fun s s' hs => .ok ⟨hs.1, rfl, ?_⟩
      have hsend := hb.sent hclaims
      exact (a.sends_block [] s'.2 b').trans (hsend.trans (a.sends_block [] s.2 b).symm)

theorem Alike.intake (h : Alike tail th th') (popped : Transaction) :
    (th.intake popped).Rel (fun r r' => Alike tail r.1 r'.1 ∧ r'.2 = r.2)
      (th'.intake popped) := by
  cases hquota : th.quotafull with
  | true =>
      rw [intake_of_quotafull hquota, intake_of_quotafull (h.quotafull.trans hquota)]
      exact .ok ⟨h, rfl⟩
  | false =>
      unfold Thread.intake
      simp only [h.quotafull, h.bc.voted, hquota, Bool.false_eq_true, if_false, readAssigned,
        Except.ok_bind, pure_bind]
      split
      · exact .ok ⟨h, rfl⟩
      · obtain ⟨ts, hts, hts'⟩ := h.newBlock.entries
        rw [hts, hts', Except.ok_bind, Except.ok_bind]
        split
        · exact .ok ⟨h, rfl⟩
        · refine (h.newBlock.setEntry popped).bind fun c c' hc => .ok ⟨⟨h.bc, hc, ?_, ?_⟩, rfl⟩
          · have hmax : c'.maxInd + 1 = c.maxInd + 1 := hc.maxInd
            rw [hmax]
          · intro hfull
            simpa using hfull

theorem Alike.mine (h : Alike tail th th') (hfull : th.quotafull = true) :
    (th.mine SHA1).Rel (fun r r' => Alike tail r.1 r'.1 ∧ r'.2 = r.2) (th'.mine SHA1) := by
  unfold Thread.mine
  rw [h.newBlock.eq_of_full (h.full hfull)]
  refine Except.Rel.bind_same _ ?_
  rintro ⟨w, found⟩ hloop
  cases found with
  | true =>
      -- the heads may differ in their entries, the pointer that is taken leads to one hash
      refine h.bc.getHeadBlock.bind fun head head' hhead => ?_
      rw [hhead.1]
      refine (h.bc.addBlock _).bind ?_
      rintro ⟨bc, c⟩ ⟨bc', c'⟩ ⟨hbc, hc⟩
      obtain rfl : c' = c := hc
      dsimp only
      split
      · exact .error _
      · exact .ok ⟨.restart hbc _ _, rfl⟩
  | false =>
      obtain ⟨⟨magic, merkleRoot, finhash, rfl⟩, -⟩ := mineLoop_spec hloop
      obtain ⟨ts, hts, -⟩ := h.newBlock.entries
      exact .ok ⟨⟨h.bc, ⟨⟨_, rfl⟩, ts, hts, hts⟩, h.quotafull, h.full⟩, rfl⟩

theorem Alike.afterReceive (h : Alike tail th th') (popped : Transaction) :
    (th.afterReceive SHA1 popped).Rel (fun r r' => Alike tail r.1 r'.1 ∧ r'.2 = r.2)
      (th'.afterReceive SHA1 popped) := by
  refine (h.intake popped).bind ?_
  rintro ⟨th₁, docontinue, effects⟩ ⟨th₁', docontinue', effects'⟩ ⟨h₁, heq⟩
  obtain ⟨rfl, rfl⟩ := Prod.mk.inj heq
  have hquota : th₁'.quotafull = th₁.quotafull := h₁.quotafull
  dsimp only at h₁ ⊢
  split
  · exact .ok ⟨h₁.at_point _ _, rfl⟩
  · by_cases hfull : th₁.quotafull = true
    · rw [if_pos hfull, if_pos (hquota.trans hfull)]
      refine ((h₁.at_point .mine .mine).mine hfull).bind fun r r' hr => .ok ⟨hr.1, ?_⟩
      dsimp only
      rw [hr.2]
    · rw [if_neg hfull, if_neg (by rwa [hquota])]
      exact .ok ⟨h₁.at_point _ _, rfl⟩

/-- Blocks that the two miners take for one, if the pass takes a block. -/
inductive SameBlock (th th' : Thread) (a : Arrival) : Option Block → Option Block → Prop
  | none : SameBlock th th' a none none
  | some {b b' : Block} :
      Interchangeable th th' a b b' → SameBlock th th' a (some b) (some b')

theorem Alike.block (h : Alike tail th th') {a : Arrival} (hread : th.ReadsAssigned a)
    (p p' : PassMemory) : (a.block p).Rel (SameBlock th th' a) (a.block p') := by
  unfold Arrival.block
  cases hmsg : a.message with
  | none => exact .ok .none
  | some m =>
      dsimp only
      cases hb : a.decode m with
      | error e => exact .error e
      | ok b =>
          obtain ⟨hverify, hsend⟩ := hread m b hmsg hb
          exact .ok (.some (interchangeable_inMemory h.bc hb hverify hsend _ _))

theorem Alike.check (h : Alike tail th th') {a : Arrival} (hread : th.ReadsAssigned a)
    (p p' : PassMemory) : a.check p' th'.bc = a.check p th.bc := by
  refine (Except.Rel.eq ((h.block hread p p').bind fun b? b?' hb => ?_)).symm
  cases hb with
  | none => exact .ok rfl
  | some hb =>
      dsimp only
      rw [hb.check]
      exact Except.Rel.refl (fun _ => rfl) _

theorem Alike.pass (h : Alike tail th th') {a : Arrival} (hread : th.ReadsAssigned a)
    (p p' : PassMemory) : (th.pass SHA1 p a).Rel (Alike tail) (th'.pass SHA1 p' a) := by
  refine (h.block hread p p').bind fun b? b?' hb => ?_
  -- the memory of the pass replaces what the last one left behind `max_ind`
  have hmem := h.inMemory p.working p'.working
  have hreceive : ((th.inMemory p.working).receiveNext a.repairEnv b?).Rel (AlikeAfter tail a)
      ((th'.inMemory p'.working).receiveNext a.repairEnv b?') := by
    cases hb with
    | none => exact .ok ⟨hmem, rfl, rfl⟩
    | some hb => exact hmem.receive ⟨hb.fields, hb.check, hb.accepted, hb.sent⟩ a.repairEnv
  refine hreceive.bind ?_
  rintro ⟨th₁, docontinue, effects⟩ ⟨th₁', docontinue', effects'⟩ ⟨h₁, hcontinue, hsends⟩
  obtain rfl : docontinue' = docontinue := hcontinue
  dsimp only at h₁ hsends ⊢
  rw [hsends]
  refine Except.Rel.bind_same _ fun _ _ => ?_
  split
  · exact .ok (h₁.at_point _ _)
  · refine ((h₁.at_point _ _).afterReceive a.popped).bind ?_
    rintro ⟨th₂, effects₂⟩ ⟨th₂', effects₂'⟩ ⟨h₂, heffects⟩
    obtain rfl : effects₂' = effects₂ := heffects
    exact Except.Rel.bind_same _ fun _ _ => .ok h₂

end Thread

end OneVote
