import NetLab.Foundation.Machine
import NetLab.Foundation.Ring
import NetLab.PacketCapture.Capture

/-! `packet_mmap.c`: the reader loop over the memory-mapped ring of blocks, and the kernel that
fills the blocks. Every access to a block is a step, so that both sides interleave freely. -/
namespace NetLab.PacketMmap

open PacketCapture (Line)

/-- `BLOCK_NR` -/
def blockNr : ℕ := 4

def tpStatusKernel : BitVec 32 := 0
def tpStatusUser : BitVec 32 := 1

/-- A `tpacket3_hdr`; `frame` is the memory from `tp_mac` bytes behind it on. -/
structure Packet where
  tpNextOffset : ℕ
  tpSnaplen : ℕ
  tpLen : ℕ
  frame : Memory

/-- A block apart from its status; `packetAt` is what lies at each offset into it. -/
structure Contents where
  numPkts : ℕ
  offsetToFirstPkt : ℕ
  packetAt : ℕ → Packet

structure Block where
  blockStatus : BitVec 32
  contents : Contents

/-- The test of `TP_STATUS_USER`. -/
def Block.user (b : Block) : Bool := b.blockStatus &&& tpStatusUser != 0

/-- The lines on an IPv4 packet. -/
def dissectIpv4 (proto : ℕ) : Look (List Line) :=
  if proto = ethPIp then do
    let protocol ← Look.byte (ethernetSize+9)
    return [.ipv4Detected,.ipProtocol protocol]
  else return []

/-- The report on one packet; the test of the EtherType comes first. -/
def dissect : Look (List Line) := do
  let proto ← Look.short 12
  let ipv4 ← dissectIpv4 proto
  let dest ← Look.field 0 6
  let source ← Look.field 6 6
  let etherType ← Look.short 12
  return ipv4 ++ [.destinationMac dest,.sourceMac source,.etherType etherType]

namespace Contents

variable (c : Contents)

/-- The `n` packets that are linked from `offset` on. -/
def packetsFrom : ℕ → ℕ → List Packet
  | 0,_ => []
  | n+1,offset =>
    c.packetAt offset::packetsFrom n (offset+(c.packetAt offset).tpNextOffset)

/-- `n` packets are linked from `offset` on, and the last one ends the list. -/
def Linked : ℕ → ℕ → Prop
  | 0,_ => True
  | n+1,offset =>
    ((c.packetAt offset).tpNextOffset = 0 ↔ n = 0) ∧
      Linked n (offset+(c.packetAt offset).tpNextOffset)

instance : (n offset : ℕ) → Decidable (c.Linked n offset)
  | 0,_ => inferInstanceAs (Decidable True)
  | n+1,offset =>
    have := instDecidableLinked n (offset+(c.packetAt offset).tpNextOffset)
    inferInstanceAs (Decidable (_ ∧ _))

def packets : List Packet := c.packetsFrom c.numPkts c.offsetToFirstPkt

def WellLinked : Prop := c.Linked c.numPkts c.offsetToFirstPkt

instance : Decidable c.WellLinked := inferInstanceAs (Decidable (c.Linked _ _))

end Contents

/-- Where the reader is; `k` is `packet_num`, `offset` is where `packet` points. -/
inductive Pc
  | poll
  | opened
  | test (k offset : ℕ)
  | visit (k offset : ℕ)
  | next (k offset : ℕ)
  | release
  | advance

inductive Event
  | handOver (block : ℕ) (contents : Contents)
  | poll (block : ℕ)
  | readHeader (block : ℕ)
  | visit (block : ℕ) (packet : Packet)
  | readNext (block : ℕ)
  | release (block : ℕ)

structure State where
  blocks : ℕ → Block
  blockNum : ℕ
  pc : Pc
  /-- The block that the kernel fills. -/
  current : ℕ
  log : List Event

def State.block (s : State) : Block := s.blocks s.blockNum

/-- The next access of the reader loop. -/
def State.read (s : State) : State :=
  let c := s.block.contents
  match s.pc with
  | .poll =>
    { s with pc := if s.block.user then .opened else .poll, log := s.log ++ [.poll s.blockNum] }
  | .opened =>
    { s with pc := .test 0 c.offsetToFirstPkt, log := s.log ++ [.readHeader s.blockNum] }
  | .test k offset =>
    { s with pc := if k < c.numPkts then .visit k offset else .release
             log := s.log ++ [.readHeader s.blockNum] }
  | .visit k offset =>
    { s with pc := .next k offset, log := s.log ++ [.visit s.blockNum (c.packetAt offset)] }
  | .next k offset =>
    let tpNextOffset := (c.packetAt offset).tpNextOffset
    { s with pc := if tpNextOffset = 0 then .release else .test (k+1) (offset+tpNextOffset)
             log := s.log ++ [.readNext s.blockNum] }
  | .release =>
    { s with
      blocks := Function.update s.blocks s.blockNum { s.block with blockStatus := tpStatusKernel }
      pc := .advance
      log := s.log ++ [.release s.blockNum] }
  | .advance => { s with blockNum := (s.blockNum+1) % blockNr, pc := .poll }

inductive Label
  /-- The kernel writes whatever it likes into its current block. -/
  | fill (contents : Contents)
  /-- It sets the status of the block and goes on to the next one. -/
  | handOver (status : BitVec 32)
  | read

def State.step (s : State) : Label → Option State
  | .fill contents =>
    if (s.blocks s.current).user = false then
      some { s with blocks :=
        Function.update s.blocks s.current { s.blocks s.current with contents := contents } }
    else none
  | .handOver status =>
    let b := { s.blocks s.current with blockStatus := status }
    if (s.blocks s.current).user = false ∧ b.user = true ∧ b.contents.WellLinked then
      some { s with
        blocks := Function.update s.blocks s.current b
        current := (s.current+1) % blockNr
        log := s.log ++ [.handOver s.current b.contents] }
    else none
  | .read => some s.read

/-- At the start every block is the kernel's. -/
def ring : Machine State Label where
  init s := (∀ k < blockNr, (s.blocks k).user = false) ∧ s.blockNum = 0 ∧ s.pc = .poll ∧
    s.current = 0 ∧ s.log = []
  step := State.step

end NetLab.PacketMmap
