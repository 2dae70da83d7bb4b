import NetLab.Foundation.History
import NetLab.PacketCapture.BlockRing

/-! The reader visits every packet of every block that the kernel hands over, once and in order,
and touches a block only while it owns it. -/
namespace NetLab.PacketMmap

def Event.handed : Event → Option (ℕ × Contents)
  | .handOver block contents => some (block,contents)
  | _ => none

def Event.visited : Event → Option (ℕ × Packet)
  | .visit block packet => some (block,packet)
  | _ => none

def Event.released : Event → Option ℕ
  | .release block => some block
  | _ => none

/-- The blocks handed over so far, with their places in the ring. -/
def handed (log : List Event) : List (ℕ × Contents) := log.filterMap Event.handed

def visits (log : List Event) : List (ℕ × Packet) := log.filterMap Event.visited

/-- How many blocks have been given back. -/
def releases (log : List Event) : ℕ := (log.filterMap Event.released).length

/-- Whether the reader owns the block: it has been handed over and not been given back since. -/
def owns (log : List Event) (k : ℕ) : Bool :=
  log.foldl (fun owned e => match e with
    | .handOver block _ => if block = k then true else owned
    | .release block => if block = k then false else owned
    | _ => owned) false

/-- The event reads more of the block than its status. -/
def Event.Reads (k : ℕ) : Event → Prop
  | .readHeader block | .readNext block => block = k
  | .visit block _ => block = k
  | _ => False

/-- The packets of a block that was handed over, with its place in the ring. -/
def packetsOf (x : ℕ × Contents) : List (ℕ × Packet) := x.2.packets.map (fun p => (x.1,p))

section Log

variable (log : List Event) (k : ℕ)

@[simp] theorem handed_append (l : List Event) : handed (log ++ l) = handed log ++ handed l :=
  List.filterMap_append

@[simp] theorem visits_append (l : List Event) : visits (log ++ l) = visits log ++ visits l :=
  List.filterMap_append

@[simp] theorem releases_append (l : List Event) :
    releases (log ++ l) = releases log+releases l := by
  simp [releases,List.filterMap_append]

@[simp] theorem owns_handOver (block : ℕ) (c : Contents) :
    owns (log ++ [.handOver block c]) k = if block = k then true else owns log k := by
  simp [owns]

@[simp] theorem owns_release (block : ℕ) :
    owns (log ++ [.release block]) k = if block = k then false else owns log k := by
  simp [owns]

end Log

/-- The reader stands before packet number `k` of the block, at the offset where it lies. -/
structure Contents.At (c : Contents) (k offset : ℕ) : Prop where
  le : k ≤ c.numPkts
  ahead : c.packets.drop k = c.packetsFrom (c.numPkts-k) offset
  linked : c.Linked (c.numPkts-k) offset

namespace Contents

variable {c : Contents} {k offset : ℕ}

@[simp] theorem packetsFrom_length (n offset : ℕ) : (c.packetsFrom n offset).length = n := by
  induction n generalizing offset with
  | zero => rfl
  | succ n ih => simp [packetsFrom,ih]

@[simp] theorem packets_length : c.packets.length = c.numPkts := packetsFrom_length _ _

theorem WellLinked.at_start (h : c.WellLinked) : c.At 0 c.offsetToFirstPkt :=
  ⟨Nat.zero_le _,rfl,h⟩

/-- The packet at hand, and what is linked behind it. -/
theorem At.split (h : c.At k offset) (hk : k < c.numPkts) :
    c.packets.take (k+1) = c.packets.take k ++ [c.packetAt offset] ∧
      c.packets.drop (k+1) =
        c.packetsFrom (c.numPkts-(k+1)) (offset+(c.packetAt offset).tpNextOffset) ∧
      ((c.packetAt offset).tpNextOffset = 0 ↔ k+1 = c.numPkts) ∧
      c.Linked (c.numPkts-(k+1)) (offset+(c.packetAt offset).tpNextOffset) := by
  have hn : c.numPkts-k = c.numPkts-(k+1)+1 := by omega
  have hahead := h.ahead
  have hlinked := h.linked
  rw [hn] at hahead hlinked
  have hlen : k < c.packets.length := by simpa using hk
  rw [packetsFrom,List.drop_eq_getElem_cons hlen,List.cons.injEq] at hahead
  refine ⟨?_,hahead.2,hlinked.1.trans (by omega),hlinked.2⟩
  rw [List.take_succ_eq_append_getElem hlen,hahead.1]

end Contents

/-- What the reader has visited of its block. -/
def Pc.seen (c : Contents) : Pc → List Packet
  | .test k _ | .visit k _ => c.packets.take k
  | .next k _ => c.packets.take (k+1)
  | .release => c.packets
  | .poll | .opened | .advance => []

/-- How many accesses to its block the reader has behind it, at most. -/
def Pc.spent (c : Contents) : Pc → ℕ
  | .poll | .advance => 0
  | .opened => 1
  | .test k _ => 3*k+2
  | .visit k _ => 3*k+3
  | .next k _ => 3*k+4
  | .release => 3*c.numPkts+3

/-- What the reader relies on at each access. -/
def Pc.Ok (b : Block) : Pc → Prop
  | .poll | .advance => True
  | .opened | .release => b.user = true
  | .test k offset => b.user = true ∧ b.contents.At k offset
  | .visit k offset | .next k offset =>
    b.user = true ∧ b.contents.At k offset ∧ k < b.contents.numPkts

/-- The first block in the ring that may still be the reader's. -/
def State.front (s : State) : ℕ :=
  match s.pc with
  | .advance => (s.blockNum+1) % blockNr
  | _ => s.blockNum

def State.cells (s : State) : ℕ → ℕ × Block := fun k => (k,s.blocks k)

/-- What is pending after the next access. -/
def State.rest (s : State) (pending : List (ℕ × Block)) : List (ℕ × Block) :=
  match s.pc with
  | .release => pending.tail
  | _ => pending

/-- A bound on the accesses that the reader still has to make to the pending blocks. -/
def State.left (s : State) (pending : List (ℕ × Block)) : ℕ :=
  let total := (pending.map (fun x => 3*x.2.contents.numPkts+5)).sum
  match s.pc with
  | .advance => total+1
  | _ => total-s.pc.spent s.block.contents

/-- `done` has been given back; `pending` lies in the ring between the two positions. -/
structure Inv (s : State) (done : List (ℕ × Contents)) (pending : List (ℕ × Block)) : Prop where
  holds : Ring.Holds blockNr (fun x => x.2.user = false) s.cells s.front pending
  owned : ∀ x ∈ pending, x.2.user = true ∧ x.2.contents.WellLinked
  room : pending.length ≤ blockNr
  position : s.current = Ring.cell blockNr s.front pending.length
  blockNum_lt : s.blockNum < blockNr
  handed_eq : handed s.log = done ++ pending.map (fun x => (x.1,x.2.contents))
  releases_eq : releases s.log = done.length
  visits_eq : visits s.log =
    done.flatMap packetsOf ++ (s.pc.seen s.block.contents).map (fun p => (s.blockNum,p))
  pc : s.pc.Ok s.block

section Steps

variable {s : State} {done : List (ℕ × Contents)} {pending : List (ℕ × Block)}

theorem State.front_eq (h : s.pc ≠ .advance) : s.front = s.blockNum := by
  unfold State.front
  split
  · contradiction
  · rfl

/-- The block at the reader's position is the first pending one as soon as it is the reader's. -/
theorem Inv.head (h : Inv s done pending) (hpc : s.pc ≠ .advance) (huser : s.block.user = true) :
    ∃ rest, pending = (s.blockNum,s.block)::rest := by
  cases pending with
  | nil =>
    have hblank := h.holds.next_blank (by decide)
    rw [State.front_eq hpc,List.length_nil,Ring.cell_zero h.blockNum_lt] at hblank
    have hblank : s.block.user = false := hblank
    rw [huser] at hblank
    contradiction
  | cons x rest =>
    rw [← h.holds.front (State.front_eq hpc ▸ h.blockNum_lt),State.front_eq hpc]
    exact ⟨rest,rfl⟩

/-- A block that the kernel owns lies behind the pending ones. -/
theorem Inv.room_of_kernel (h : Inv s done pending) (hk : (s.blocks s.current).user = false) :
    pending.length < blockNr := by
  refine lt_of_le_of_ne h.room fun hfull => ?_
  have hpos : 0 < pending.length := by
    rw [hfull]
    decide
  have hwrap : s.current = Ring.cell blockNr s.front 0 := by
    rw [h.position,hfull,Ring.cell,Ring.cell,Nat.add_mod_right,Nat.add_zero]
  have hfirst := (h.owned _ (List.getElem_mem hpos)).1
  rw [← h.holds.item 0 hpos,← hwrap] at hfirst
  have hfirst : (s.blocks s.current).user = true := hfirst
  rw [hk] at hfirst
  contradiction

theorem update_cells (b : Block) (k : ℕ) :
    State.cells { s with blocks := Function.update s.blocks k b } =
      Function.update s.cells k (k,b) := by
  funext j
  by_cases hj : j = k
  · subst hj
    simp [State.cells]
  · simp [State.cells,hj]

/-- What the kernel does to its own block does not concern the reader. -/
theorem Pc.Ok.update (h : s.pc.Ok s.block) (hk : (s.blocks s.current).user = false) (b : Block) :
    s.pc.Ok (Function.update s.blocks s.current b s.blockNum) ∧
      s.pc.seen (Function.update s.blocks s.current b s.blockNum).contents =
        s.pc.seen s.block.contents := by
  by_cases he : s.blockNum = s.current
  · rw [← he] at hk
    have hk : s.block.user = false := hk
    cases hpc : s.pc <;> simp [Pc.Ok,Pc.seen,hpc,hk] at h ⊢
  · rw [Function.update_of_ne he]
    exact ⟨h,rfl⟩

theorem Inv.fill {t : State} {c : Contents} (h : Inv s done pending)
    (ht : s.step (.fill c) = some t) : Inv t done pending := by
  obtain ⟨hk,rfl⟩ := guarded_eq_some.mp ht
  have hroom := h.room_of_kernel hk
  obtain ⟨hok,hseen⟩ := h.pc.update hk { s.blocks s.current with contents := c }
  constructor
  · change Ring.Holds _ _ (State.cells { s with blocks := Function.update _ _ _ }) s.front pending
    rw [update_cells,h.position]
    rw [h.position] at hk
    exact h.holds.write_blank le_rfl hroom hk
  · exact h.owned
  · exact h.room
  · exact h.position
  · exact h.blockNum_lt
  · exact h.handed_eq
  · exact h.releases_eq
  · exact h.visits_eq.trans (by rw [← hseen]; rfl)
  · exact hok

theorem Inv.handOver {t : State} {status : BitVec 32} (h : Inv s done pending)
    (ht : s.step (.handOver status) = some t) :
    Inv t done (pending ++ [(s.current,{ s.blocks s.current with blockStatus := status })]) := by
  obtain ⟨⟨hk,huser,hlinked⟩,rfl⟩ := guarded_eq_some.mp ht
  have hroom := h.room_of_kernel hk
  obtain ⟨hok,hseen⟩ := h.pc.update hk { s.blocks s.current with blockStatus := status }
  constructor
  · change Ring.Holds _ _ (State.cells { s with blocks := Function.update _ _ _ }) s.front _
    rw [update_cells,h.position]
    exact h.holds.push hroom _
  · intro x hx
    rcases List.mem_append.mp hx with hx | hx
    · exact h.owned x hx
    · obtain rfl := List.mem_singleton.mp hx
      exact ⟨huser,hlinked⟩
  · simpa using hroom
  · change (s.current+1) % blockNr = Ring.cell blockNr s.front _
    rw [h.position,List.length_append,List.length_singleton,← Ring.cell_cell]
    rfl
  · exact h.blockNum_lt
  · rw [handed_append,h.handed_eq,List.map_append,← List.append_assoc]
    rfl
  · rw [releases_append,h.releases_eq]
    rfl
  · rw [visits_append,h.visits_eq,← hseen]
    exact List.append_nil _
  · exact hok

/-- An access of the reader that changes neither the ring nor its place in it. -/
theorem Inv.moved {pc : Pc} {e : Event} (h : Inv s done pending) (hpc : s.pc ≠ .advance)
    (hpc' : pc ≠ .advance) (hhanded : e.handed = none) (hreleased : e.released = none)
    (hseen : (s.pc.seen s.block.contents).map (fun p => (s.blockNum,p)) ++ visits [e] =
      (pc.seen s.block.contents).map (fun p => (s.blockNum,p)))
    (hok : pc.Ok s.block) : Inv { s with pc := pc, log := s.log ++ [e] } done pending := by
  have hfront : State.front { s with pc := pc, log := s.log ++ [e] } = s.front := by
    rw [State.front_eq hpc]
    exact State.front_eq hpc'
  constructor
  · rw [hfront]
    exact h.holds
  · exact h.owned
  · exact h.room
  · rw [hfront]
    exact h.position
  · exact h.blockNum_lt
  · rw [handed_append,h.handed_eq]
    simp [handed,hhanded]
  · rw [releases_append,h.releases_eq]
    simp [releases,hreleased]
  · rw [visits_append,h.visits_eq,List.append_assoc,hseen]
    rfl
  · exact hok

theorem user_kernel {c : Contents} : Block.user ⟨tpStatusKernel,c⟩ = false := by
  change (tpStatusKernel &&& tpStatusUser != 0) = false
  decide

/-- Giving the block back moves the first pending block to the ones that are done. -/
theorem Inv.release (h : Inv s done pending) (hpc : s.pc = .release) :
    ∃ rest, pending = (s.blockNum,s.block)::rest ∧
      Inv s.read (done ++ [(s.blockNum,s.block.contents)]) rest := by
  have hne : s.pc ≠ .advance := by
    rw [hpc]
    exact Pc.noConfusion
  have huser : s.block.user = true := by
    have hok := h.pc
    rwa [hpc] at hok
  obtain ⟨rest,rfl⟩ := h.head hne huser
  refine ⟨rest,rfl,?_⟩
  have hfront := State.front_eq hne
  have hread : s.read = { s with
      blocks := Function.update s.blocks s.blockNum { s.block with blockStatus := tpStatusKernel }
      pc := .advance, log := s.log ++ [.release s.blockNum] } := by
    rw [State.read,hpc]
  have hroom := h.room
  have hholds := h.holds
  rw [hfront] at hholds
  rw [hread]
  constructor
  · change Ring.Holds _ _ (State.cells { s with blocks := Function.update _ _ _ }) _ _
    rw [update_cells]
    exact hholds.pop h.blockNum_lt (by simpa using hroom) user_kernel
  · exact fun x hx => h.owned x (List.mem_cons_of_mem _ hx)
  · exact (Nat.le_succ _).trans hroom
  · have hposition := h.position
    rw [hfront,List.length_cons,Nat.add_comm,← Ring.cell_cell] at hposition
    exact hposition
  · exact h.blockNum_lt
  · rw [handed_append,h.handed_eq]
    simp [handed,Event.handed]
  · rw [releases_append,h.releases_eq]
    simp [releases,Event.released]
  · rw [visits_append,h.visits_eq,hpc]
    simp [Pc.seen,packetsOf,visits,Event.visited]
  · trivial

theorem Inv.advance (h : Inv s done pending) (hpc : s.pc = .advance) :
    Inv s.read done pending := by
  have hread : s.read = { s with blockNum := (s.blockNum+1) % blockNr, pc := .poll } := by
    rw [State.read,hpc]
  have hfront : s.front = (s.blockNum+1) % blockNr := by
    rw [State.front,hpc]
  have hholds := h.holds
  have hposition := h.position
  have hvisits := h.visits_eq
  rw [hfront] at hholds hposition
  rw [hpc] at hvisits
  rw [hread]
  exact ⟨hholds,h.owned,h.room,hposition,Nat.mod_lt _ (by decide),h.handed_eq,h.releases_eq,hvisits,
    trivial⟩

/-- Every access of the reader keeps the invariant. -/
theorem Inv.read (h : Inv s done pending) : ∃ done', Inv s.read done' (s.rest pending) := by
  have hok := h.pc
  unfold State.rest
  cases hpc : s.pc with
  | poll =>
    refine ⟨done,?_⟩
    have hread : s.read = { s with
        pc := if s.block.user then .opened else .poll, log := s.log ++ [.poll s.blockNum] } := by
      rw [State.read,hpc]
    have hne : s.pc ≠ .advance := by simp [hpc]
    rw [hread]
    cases huser : s.block.user with
    | false => exact h.moved hne (by simp) rfl rfl (by rw [hpc]; rfl) trivial
    | true => exact h.moved hne (by simp) rfl rfl (by rw [hpc]; rfl) huser
  | opened =>
    refine ⟨done,?_⟩
    have hread : s.read = { s with
        pc := .test 0 s.block.contents.offsetToFirstPkt
        log := s.log ++ [.readHeader s.blockNum] } := by
      rw [State.read,hpc]
    rw [hpc] at hok
    have hne : s.pc ≠ .advance := by simp [hpc]
    obtain ⟨rest,rfl⟩ := h.head hne hok
    have hlinked := (h.owned _ (List.mem_cons_self ..)).2
    rw [hread]
    exact h.moved hne (by simp) rfl rfl (by rw [hpc]; rfl) ⟨hok,hlinked.at_start⟩
  | test k offset =>
    refine ⟨done,?_⟩
    have hread : s.read = { s with
        pc := if k < s.block.contents.numPkts then .visit k offset else .release
        log := s.log ++ [.readHeader s.blockNum] } := by
      rw [State.read,hpc]
    rw [hpc] at hok
    obtain ⟨huser,hat⟩ := hok
    have hne : s.pc ≠ .advance := by simp [hpc]
    rw [hread]
    split_ifs with hk
    · exact h.moved hne (by simp) rfl rfl (by rw [hpc]; exact List.append_nil _) ⟨huser,hat,hk⟩
    · refine h.moved hne (by simp) rfl rfl ?_ huser
      rw [hpc,Pc.seen,Pc.seen,List.take_of_length_le (by simpa using hk)]
      exact List.append_nil _
  | visit k offset =>
    refine ⟨done,?_⟩
    have hread : s.read = { s with
        pc := .next k offset
        log := s.log ++ [.visit s.blockNum (s.block.contents.packetAt offset)] } := by
      rw [State.read,hpc]
    rw [hpc] at hok
    obtain ⟨huser,hat,hk⟩ := hok
    have hne : s.pc ≠ .advance := by simp [hpc]
    rw [hread]
    refine h.moved hne (by simp) rfl rfl ?_ ⟨huser,hat,hk⟩
    rw [hpc,Pc.seen,Pc.seen,(hat.split hk).1,List.map_append]
    rfl
  | next k offset =>
    refine ⟨done,?_⟩
    have hread : s.read = { s with
        pc := if (s.block.contents.packetAt offset).tpNextOffset = 0 then .release
          else .test (k+1) (offset+(s.block.contents.packetAt offset).tpNextOffset)
        log := s.log ++ [.readNext s.blockNum] } := by
      rw [State.read,hpc]
    rw [hpc] at hok
    obtain ⟨huser,hat,hk⟩ := hok
    obtain ⟨-,hahead,hlast,hlinked⟩ := hat.split hk
    have hne : s.pc ≠ .advance := by simp [hpc]
    rw [hread]
    split_ifs with hzero
    · refine h.moved hne (by simp) rfl rfl ?_ huser
      rw [hpc,Pc.seen,Pc.seen,List.take_of_length_le]
      · exact List.append_nil _
      · simpa using (hlast.mp hzero).ge
    · refine h.moved hne (by simp) rfl rfl ?_ ⟨huser,hk,hahead,hlinked⟩
      rw [hpc]
      exact List.append_nil _
  | release =>
    obtain ⟨rest,rfl,hrest⟩ := h.release hpc
    exact ⟨_,hrest⟩
  | advance => exact ⟨_,h.advance hpc⟩

/-- Unless the reader waits for the kernel, every access brings it closer to that. -/
theorem Inv.left_read (h : Inv s done pending) (hbusy : s.pc = .poll → pending ≠ []) :
    s.read.left (s.rest pending) < s.left pending := by
  have hok := h.pc
  have hhead : s.block.user = true → s.pc ≠ .advance →
      ∃ rest, pending = (s.blockNum,s.block)::rest := fun huser hne => h.head hne huser
  cases hpc : s.pc with
  | poll =>
    obtain ⟨x,rest,rfl⟩ := List.exists_cons_of_ne_nil (hbusy hpc)
    have hne : s.pc ≠ .advance := by simp [hpc]
    have hx := h.holds.front (State.front_eq hne ▸ h.blockNum_lt)
    rw [State.front_eq hne] at hx
    have huser : s.block.user = true := by
      have := (h.owned x (List.mem_cons_self ..)).1
      rwa [← hx] at this
    simp [State.left,State.rest,State.read,hpc,huser,Pc.spent]
  | opened =>
    rw [hpc] at hok
    obtain ⟨rest,rfl⟩ := hhead hok (by simp [hpc])
    simp [State.left,State.rest,State.read,hpc,Pc.spent,State.block]
    omega
  | test k offset =>
    rw [hpc] at hok
    obtain ⟨rest,rfl⟩ := hhead hok.1 (by simp [hpc])
    have hle : k ≤ (s.blocks s.blockNum).contents.numPkts := hok.2.le
    by_cases hk : k < (s.blocks s.blockNum).contents.numPkts
    · simp [State.left,State.rest,State.read,hpc,Pc.spent,hk,State.block]
      omega
    · simp [State.left,State.rest,State.read,hpc,Pc.spent,hk,State.block]
      omega
  | visit k offset =>
    rw [hpc] at hok
    obtain ⟨rest,rfl⟩ := hhead hok.1 (by simp [hpc])
    have hk := hok.2.2
    simp [State.left,State.rest,State.read,hpc,Pc.spent,State.block] at hk ⊢
    omega
  | next k offset =>
    rw [hpc] at hok
    obtain ⟨rest,rfl⟩ := hhead hok.1 (by simp [hpc])
    have hk : k < (s.blocks s.blockNum).contents.numPkts := hok.2.2
    have hlast : ((s.blocks s.blockNum).contents.packetAt offset).tpNextOffset = 0 ↔
        k+1 = (s.blocks s.blockNum).contents.numPkts := (hok.2.1.split hk).2.2.1
    by_cases hzero : ((s.blocks s.blockNum).contents.packetAt offset).tpNextOffset = 0
    · have hn := hlast.mp hzero
      simp [State.left,State.rest,State.read,hpc,Pc.spent,hzero,State.block]
      omega
    · simp [State.left,State.rest,State.read,hpc,Pc.spent,hzero,State.block]
      omega
  | release =>
    rw [hpc] at hok
    obtain ⟨rest,rfl⟩ := hhead hok (by simp [hpc])
    simp [State.left,State.rest,State.read,hpc,Pc.spent,State.block]
    omega
  | advance => simp [State.left,State.rest,State.read,hpc,Pc.spent]

/-- What an access leaves behind: it takes none of the log, gives the block back, or only looks
at the block, and then at more than the status only when the reader owns it. -/
theorem State.read_cases (s : State) :
    (s.read.log = s.log ∧ s.read.blocks = s.blocks) ∨
    (s.pc = .release ∧ s.read.log = s.log ++ [.release s.blockNum] ∧
      s.read.blocks =
        Function.update s.blocks s.blockNum { s.block with blockStatus := tpStatusKernel }) ∨
    ∃ e, s.read.log = s.log ++ [e] ∧ s.read.blocks = s.blocks ∧ e.handed = none ∧
      e.released = none ∧ ∀ k, e.Reads k → k = s.blockNum ∧ ∀ b, s.pc.Ok b → b.user = true := by
  unfold State.read
  cases hpc : s.pc with
  | poll => exact .inr (.inr ⟨_,rfl,rfl,rfl,rfl,fun k hk => hk.elim⟩)
  | opened => exact .inr (.inr ⟨_,rfl,rfl,rfl,rfl,fun k hk => ⟨hk.symm,fun b hb => hb⟩⟩)
  | test k offset => exact .inr (.inr ⟨_,rfl,rfl,rfl,rfl,fun k hk => ⟨hk.symm,fun b hb => hb.1⟩⟩)
  | visit k offset => exact .inr (.inr ⟨_,rfl,rfl,rfl,rfl,fun k hk => ⟨hk.symm,fun b hb => hb.1⟩⟩)
  | next k offset => exact .inr (.inr ⟨_,rfl,rfl,rfl,rfl,fun k hk => ⟨hk.symm,fun b hb => hb.1⟩⟩)
  | release => exact .inr (.inl ⟨rfl,rfl,rfl⟩)
  | advance => exact .inl ⟨rfl,rfl⟩

theorem handed_read (s : State) : handed s.read.log = handed s.log := by
  obtain ⟨hlog,-⟩ | ⟨-,hlog,-⟩ | ⟨e,hlog,-,hhanded,-⟩ := s.read_cases
  · rw [hlog]
  · rw [hlog,handed_append]
    exact List.append_nil _
  · rw [hlog,handed_append]
    simp [handed,hhanded]

end Steps

/-- A block is given back after exactly the packets of the blocks up to it have been visited. -/
def Whole (pre : List Event) (e : Event) : Prop :=
  ∀ k, e = .release k → ∃ c, (handed pre)[releases pre]? = some (k,c) ∧
    visits pre = ((handed pre).take (releases pre+1)).flatMap packetsOf

/-- What the log says about ownership is what the status words say, and the reader keeps to it. -/
structure Audited (s : State) : Prop where
  owns_eq : ∀ k, k < blockNr → owns s.log k = (s.blocks k).user
  reads : Throughout (fun pre e => ∀ k, e.Reads k → owns pre k = true) s.log
  whole : Throughout Whole s.log

theorem owns_other (log : List Event) {e : Event} (k : ℕ) (hhanded : e.handed = none)
    (hreleased : e.released = none) : owns (log ++ [e]) k = owns log k := by
  cases e <;> first | contradiction | simp [owns]

section Audit

variable {s : State} {done : List (ℕ × Contents)} {pending : List (ℕ × Block)}

theorem Inv.whole (h : Inv s done pending) (hpc : s.pc = .release) :
    Whole s.log (.release s.blockNum) := by
  intro k hk
  obtain rfl : s.blockNum = k := by simpa using hk
  obtain ⟨rest,rfl,-⟩ := h.release hpc
  refine ⟨s.block.contents,?_,?_⟩
  · simp [h.handed_eq,h.releases_eq]
  · rw [h.visits_eq,h.handed_eq,h.releases_eq,hpc,List.take_length_add_append]
    simp [Pc.seen,packetsOf]

theorem Audited.read (ha : Audited s) (h : Inv s done pending) : Audited s.read := by
  obtain ⟨hlog,hblocks⟩ | ⟨hpc,hlog,hblocks⟩ | ⟨e,hlog,hblocks,hhanded,hreleased,hreads⟩ :=
    s.read_cases
  · constructor <;> rw [hlog]
    · rw [hblocks]
      exact ha.owns_eq
    · exact ha.reads
    · exact ha.whole
  · constructor <;> rw [hlog]
    · intro k hk
      rw [owns_release,hblocks]
      split_ifs with hb
      · rw [← hb,Function.update_self]
        exact user_kernel.symm
      · rw [Function.update_of_ne (Ne.symm hb)]
        exact ha.owns_eq k hk
    · exact throughout_snoc.mpr ⟨ha.reads,fun k hk => hk.elim⟩
    · exact throughout_snoc.mpr ⟨ha.whole,h.whole hpc⟩
  · constructor <;> rw [hlog]
    · intro k hk
      rw [owns_other _ _ hhanded hreleased,hblocks]
      exact ha.owns_eq k hk
    · refine throughout_snoc.mpr ⟨ha.reads,fun k hk => ?_⟩
      obtain ⟨rfl,huser⟩ := hreads k hk
      rw [ha.owns_eq _ h.blockNum_lt]
      exact huser _ h.pc
    · refine throughout_snoc.mpr ⟨ha.whole,fun k hk => ?_⟩
      rw [hk] at hreleased
      contradiction

theorem Audited.fill {t : State} {c : Contents} (ha : Audited s) (ht : s.step (.fill c) = some t) :
    Audited t := by
  obtain ⟨-,rfl⟩ := guarded_eq_some.mp ht
  refine ⟨fun k hk => ?_,ha.reads,ha.whole⟩
  dsimp only
  rw [ha.owns_eq k hk]
  by_cases hcurrent : k = s.current
  · subst hcurrent
    rw [Function.update_self]
    rfl
  · rw [Function.update_of_ne hcurrent]

theorem Audited.handOver {t : State} {status : BitVec 32} (ha : Audited s)
    (ht : s.step (.handOver status) = some t) : Audited t := by
  obtain ⟨⟨-,huser,-⟩,rfl⟩ := guarded_eq_some.mp ht
  refine ⟨fun k hk => ?_,throughout_snoc.mpr ⟨ha.reads,fun k hk => hk.elim⟩,
    throughout_snoc.mpr ⟨ha.whole,fun k hk => Event.noConfusion hk⟩⟩
  dsimp only
  rw [owns_handOver]
  split_ifs with hcurrent
  · rw [← hcurrent,Function.update_self]
    exact huser.symm
  · rw [Function.update_of_ne (Ne.symm hcurrent)]
    exact ha.owns_eq k hk

/-- What has been visited of a block is an initial part of what has been handed over. -/
theorem Inv.visits_prefix (h : Inv s done pending) :
    visits s.log <+: (handed s.log).flatMap packetsOf := by
  rw [h.visits_eq,h.handed_eq,List.flatMap_append,List.prefix_append_right_inj]
  have hseen : s.pc.seen s.block.contents <+: s.block.contents.packets := by
    cases s.pc <;> simp [Pc.seen,List.take_prefix]
  by_cases hnil : s.pc.seen s.block.contents = []
  · simp [hnil]
  · have hok := h.pc
    have hne : s.pc ≠ .advance ∧ s.block.user = true := by
      cases hpc : s.pc <;> simp_all [Pc.Ok,Pc.seen]
    obtain ⟨rest,rfl⟩ := h.head hne.1 hne.2
    rw [List.map_cons,List.flatMap_cons]
    exact (hseen.map _).trans (List.prefix_append _ _)

end Audit

theorem ring_inv {s : State} (h : ring.Reachable s) :
    Audited s ∧ ∃ done pending, Inv s done pending := by
  refine h.invariant (I := fun s => Audited s ∧ ∃ done pending, Inv s done pending) ?_ ?_
  · rintro ⟨blocks,blockNum,pc,current,log⟩ ⟨hkernel,rfl,rfl,rfl,rfl⟩
    refine ⟨⟨fun k hk => (hkernel k hk).symm,throughout_nil,throughout_nil⟩,[],[],?_⟩
    exact ⟨Ring.Holds.empty hkernel,by simp,by simp,rfl,Nat.succ_pos _,rfl,rfl,rfl,trivial⟩
  · rintro s a t - ⟨ha,done,pending,hinv⟩ - ht
    cases a with
    | fill c => exact ⟨ha.fill ht,done,pending,hinv.fill ht⟩
    | handOver status => exact ⟨ha.handOver ht,done,_,hinv.handOver ht⟩
    | read =>
      obtain rfl := Option.some.inj ht
      obtain ⟨done',hread⟩ := hinv.read
      exact ⟨ha.read hinv,done',_,hread⟩

/-- Left alone, the reader gets through everything that has been handed over. -/
theorem Inv.finishes {s : State} {done : List (ℕ × Contents)} {pending : List (ℕ × Block)}
    (h : Inv s done pending) : ∃ n, (State.read^[n] s).pc = .poll ∧
      handed (State.read^[n] s).log = handed s.log ∧
      visits (State.read^[n] s).log = (handed s.log).flatMap packetsOf := by
  induction hleft : s.left pending using Nat.strong_induction_on generalizing s done pending with
  | _ m ih =>
    by_cases hidle : s.pc = .poll ∧ pending = []
    · obtain ⟨hpc,rfl⟩ := hidle
      refine ⟨0,hpc,rfl,?_⟩
      simp [h.visits_eq,h.handed_eq,hpc,Pc.seen]
    · have hlt := h.left_read (fun hpc hnil => hidle ⟨hpc,hnil⟩)
      obtain ⟨done',hread⟩ := h.read
      obtain ⟨n,hpoll,hhanded,hvisits⟩ := ih _ (hleft ▸ hlt) hread rfl
      rw [handed_read] at hhanded hvisits
      exact ⟨n+1,hpoll,hhanded,hvisits⟩

/-- In every reachable state: the packets visited are an initial part of the packets handed over,
each once and in the order of capture; a block is read only while the reader owns it; it is given
back after its last packet has been visited; and the reader, left alone, visits the rest. -/
theorem blocks_read_once {s : State} (h : ring.Reachable s) :
    visits s.log <+: (handed s.log).flatMap packetsOf ∧
    Throughout (fun pre e => ∀ k, e.Reads k → owns pre k = true) s.log ∧
    Throughout Whole s.log ∧
    ∃ n, handed (State.read^[n] s).log = handed s.log ∧
      visits (State.read^[n] s).log = (handed s.log).flatMap packetsOf := by
  obtain ⟨ha,done,pending,hinv⟩ := ring_inv h
  obtain ⟨n,-,hhanded,hvisits⟩ := hinv.finishes
  exact ⟨hinv.visits_prefix,ha.reads,ha.whole,n,hhanded,hvisits⟩

/-- Two packets, 128 bytes apart. -/
def twoPackets : Contents where
  numPkts := 2
  offsetToFirstPkt := 48
  packetAt offset := ⟨if offset = 48 then 128 else 0,60,60,fun _ => 0⟩

/-- The kernel hands over one block and the reader gives it back. -/
def oneBlock : List Label := [.fill twoPackets,.handOver tpStatusUser] ++ List.replicate 11 .read

def State.initial : State := ⟨fun _ => ⟨tpStatusKernel,⟨0,0,fun _ => ⟨0,0,0,fun _ => 0⟩⟩⟩,0,.poll,0,[]⟩

theorem blocks_read_once_oneBlock : ∃ s, ring.run oneBlock State.initial = some s ∧
    releases s.log = 1 ∧ (visits s.log).length = 2 ∧
    visits s.log <+: (handed s.log).flatMap packetsOf := by
  have hinit : ring.init State.initial := ⟨fun _ _ => user_kernel,rfl,rfl,rfl,rfl⟩
  have hrun : (ring.run oneBlock State.initial).map
      (fun s => (releases s.log,(visits s.log).length)) = some (1,2) := by decide
  obtain ⟨s,hs,hout⟩ := Option.map_eq_some_iff.mp hrun
  obtain ⟨hreleases,hvisits⟩ := Prod.mk.inj hout
  exact ⟨s,hs,hreleases,hvisits,(blocks_read_once (.of_run (.init hinit) hs)).1⟩

end NetLab.PacketMmap
