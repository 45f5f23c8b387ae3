import Mathlib.Algebra.Order.Ring.Int
import SqlReplay.Bytes

/-!
# From captured frames to TCP segments

A frame is stripped of its link-layer header (`stripLink`) and the datagram parsed down to a TCP
segment (`parseIpTcp`). Every function is partial in the way the source is: a frame that is cut
short, another protocol or an IP fragment gives nothing.
-/

namespace SqlReplay

/-- `(address, port)`; v4 addresses are in the 16-byte form. -/
structure Endpoint where
  addr : Bytes
  port : ℕ
  deriving DecidableEq, Repr

/-- A tracked connection, keyed client to server. -/
structure FlowKey where
  client : Endpoint
  server : Endpoint
  deriving DecidableEq, Repr

structure TcpSegment where
  src : Endpoint
  dst : Endpoint
  seq : UInt32
  syn : Bool
  fin : Bool
  ack : Bool
  rst : Bool
  payload : Bytes
  deriving DecidableEq, Repr

/-! ## Link types -/

def LINKTYPE_NULL : ℤ := 0
def LINKTYPE_ETHERNET : ℤ := 1
def LINKTYPE_RAW : ℤ := 101
def LINKTYPE_LOOP : ℤ := 108
def LINKTYPE_LINUX_SLL : ℤ := 113
def LINKTYPE_LINUX_SLL2 : ℤ := 276

/-- `u16::from_be_bytes`. -/
def be16 (hi lo : UInt8) : ℕ := hi.toNat * 2 ^ 8 + lo.toNat

/-- `u16::from_be_bytes([b[i], b[i + 1]])`. -/
def be16At (b : Bytes) (i : ℕ) : ℕ := be16 (b.getD i 0) (b.getD (i + 1) 0)

/-- `u32::from_be_bytes` of the four bytes from `i` on. -/
def be32At (b : Bytes) (i : ℕ) : UInt32 := (be16At b i * 2 ^ 16 + be16At b (i + 2)).toUInt32

/-- `&b[i..j]`. -/
def sliceOf (b : Bytes) (i j : ℕ) : Bytes := (b.take j).drop i

/-- The ethertypes of IPv4 and IPv6. -/
def isIpEthertype (t : ℕ) : Bool := t = 0x0800 || t = 0x86dd

/-- A frame from its ethertype on, the VLAN tags skipped. -/
def afterEthertype : Bytes → Option Bytes
  | hi :: lo :: rest =>
    if be16 hi lo = 0x8100 ∨ be16 hi lo = 0x88a8 then afterEthertype (rest.drop 2)
    else if isIpEthertype (be16 hi lo) then some rest
    else none
  | _ => none
  termination_by b => b.length

/-- `strip_link`: the IP datagram of a frame. -/
def stripLink (linktype : ℤ) (frame : Bytes) : Option Bytes :=
  if linktype = LINKTYPE_ETHERNET then
    if frame.length < 14 then none else afterEthertype (frame.drop 12)
  else if linktype = LINKTYPE_LINUX_SLL then
    if frame.length < 16 then none
    else if isIpEthertype (be16At frame 14) then some (frame.drop 16)
    else none
  else if linktype = LINKTYPE_LINUX_SLL2 then
    if frame.length < 20 then none
    else if isIpEthertype (be16At frame 0) then some (frame.drop 20)
    else none
  else if linktype = LINKTYPE_RAW then some frame
  else if linktype = LINKTYPE_NULL ∨ linktype = LINKTYPE_LOOP then
    if frame.length < 4 then none else some (frame.drop 4)
  else none

/-! ## IP and TCP -/

/-- The fragment bits of an IPv4 header: more fragments, or an offset. -/
def isFragmentWord (word : ℕ) : Bool := word &&& 0x3fff != 0

/-- `is_ip_fragment`. -/
def isIpFragment (ip : Bytes) : Bool :=
  match ip.head? with
  | none => false
  | some b =>
    if b >>> 4 = 4 ∧ 8 ≤ ip.length then isFragmentWord (be16At ip 6)
    else if b >>> 4 = 6 ∧ 40 ≤ ip.length then ip.getD 6 0 == 44
    else false

/-- `v4mapped`. -/
def v4mapped (a : Bytes) : Bytes := List.replicate 10 0 ++ [0xff, 0xff] ++ a.take 4

/-- The IPv4 arm of `parse_ip_tcp`: the two addresses and the TCP bytes. A frame padded beyond the
total length of the datagram is cut to it. -/
def parseIpv4 (ip : Bytes) : Option (Bytes × Bytes × Bytes) :=
  let ihl := (ip.getD 0 0 &&& 0x0f).toNat * 4
  if ip.length < 20 then none
  else if ihl < 20 ∨ ip.length < ihl then none
  else if isFragmentWord (be16At ip 6) then none
  else if ip.getD 9 0 ≠ 6 then none
  else
    let total := be16At ip 2
    let stop := if ihl ≤ total ∧ total ≤ ip.length then total else ip.length
    some (v4mapped (sliceOf ip 12 16), v4mapped (sliceOf ip 16 20), sliceOf ip ihl stop)

/-- The walk along the extension headers of an IPv6 datagram, to the offset of its TCP header. -/
def tcpOffset (ip : Bytes) (next : UInt8) (off : ℕ) : Option ℕ :=
  if next = 6 then some off
  else if next = 0 ∨ next = 43 ∨ next = 60 then
    if ip.length < off + 8 then none
    else
      let off' := off + ((ip.getD (off + 1) 0).toNat + 1) * 8
      if ip.length < off' then none else tcpOffset ip (ip.getD off 0) off'
  else none
  termination_by ip.length - off

/-- The IPv6 arm of `parse_ip_tcp`. -/
def parseIpv6 (ip : Bytes) : Option (Bytes × Bytes × Bytes) :=
  if ip.length < 40 then none
  else
    match tcpOffset ip (ip.getD 6 0) 40 with
    | none => none
    | some off =>
      let stop := min (40 + be16At ip 4) ip.length
      if stop < off then none
      else some (sliceOf ip 8 24, sliceOf ip 24 40, sliceOf ip off stop)

/-- The TCP segment of the given addresses. -/
def parseTcp (src dst tcp : Bytes) : Option TcpSegment :=
  let doff := (tcp.getD 12 0 >>> 4).toNat * 4
  let flags := tcp.getD 13 0
  if tcp.length < 20 then none
  else if doff < 20 ∨ tcp.length < doff then none
  else
    some
      { src := ⟨src, be16At tcp 0⟩
        dst := ⟨dst, be16At tcp 2⟩
        seq := be32At tcp 4
        fin := flags &&& 0x01 != 0
        syn := flags &&& 0x02 != 0
        rst := flags &&& 0x04 != 0
        ack := flags &&& 0x10 != 0
        payload := tcp.drop doff }

/-- `parse_ip_tcp`: the TCP segment of an IP datagram, on any port. -/
def parseIpTcp (ip : Bytes) : Option TcpSegment :=
  match ip.head? with
  | none => none
  | some b =>
    let addressed :=
      if b >>> 4 = 4 then parseIpv4 ip else if b >>> 4 = 6 then parseIpv6 ip else none
    match addressed with
    | none => none
    | some (src, dst, tcp) => parseTcp src dst tcp

end SqlReplay
