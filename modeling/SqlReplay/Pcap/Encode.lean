import SqlReplay.Pcap.Frame

/-!
# Frames that carry a TCP segment

The encoders that `stripLink` and `parseIpTcp` undo: a TCP header with its options, an IPv4 header
with its options or an IPv6 header with its chain of extension headers, and the link layer with its
VLAN tags. What a capture has behind the datagram is padding, of any length and content.

Two walks of the parser have no bound, along the tags and along the chain; each of them is undone by
an induction over the list that the encoder writes out (`afterEthertype_tags`,
`tcpOffset_chain`). Everything else is at a fixed place behind a header whose length is known. The
end of the payload comes from the lengths in the IP header alone, and with them the padding goes
(`parseIpTcp_stripLink`).
-/

namespace SqlReplay

/-! ## Big-endian bytes -/

/-- `to_be_bytes` of a `u16`. -/
def be16Bytes (n : ℕ) : Bytes := [(n / 2 ^ 8).toUInt8, n.toUInt8]

/-- `to_be_bytes` of a `u32`. -/
def be32Bytes (v : UInt32) : Bytes := be16Bytes (v.toNat / 2 ^ 16) ++ be16Bytes v.toNat

theorem be16_bytes (n : ℕ) : be16 (n / 2 ^ 8).toUInt8 n.toUInt8 = n % 2 ^ 16 := by
  have hbyte (m : ℕ) : m.toUInt8.toNat = m % 256 := UInt8.toNat_ofNat'
  rw [be16, hbyte, hbyte]
  omega

theorem be16_port (v : UInt16) : be16 (v.toNat / 2 ^ 8).toUInt8 v.toNat.toUInt8 = v.toNat := by
  rw [be16_bytes, Nat.mod_eq_of_lt v.toNat_lt]

theorem be32_bytes (v : UInt32) :
    (be16 (v.toNat / 2 ^ 16 / 2 ^ 8).toUInt8 (v.toNat / 2 ^ 16).toUInt8 * 2 ^ 16 +
      be16 (v.toNat / 2 ^ 8).toUInt8 v.toNat.toUInt8).toUInt32 = v := by
  have hlt := v.toNat_lt
  have hsum : v.toNat / 2 ^ 16 % 2 ^ 16 * 2 ^ 16 + v.toNat % 2 ^ 16 = v.toNat := by omega
  rw [be16_bytes, be16_bytes, hsum]
  exact UInt32.ofNat_toNat

/-- The byte of two halves. -/
def nibbles (hi lo : Fin 16) : UInt8 := (hi.val * 16 + lo.val).toUInt8

theorem nibbles_high (hi lo : Fin 16) : (nibbles hi lo >>> 4).toNat = hi := by
  revert hi lo
  decide

theorem nibbles_low (hi lo : Fin 16) : (nibbles hi lo &&& 0x0f).toNat = lo := by
  revert hi lo
  decide

theorem sliceOf_append {a b c : Bytes} {i j : ℕ} (hi : a.length = i) (hj : i + b.length = j) :
    sliceOf (a ++ (b ++ c)) i j = b := by
  rw [sliceOf, ← hj, ← hi, List.take_length_add_append, List.take_left, List.drop_left]

theorem getD_append (front b : Bytes) (j : ℕ) :
    (front ++ b).getD (front.length + j) 0 = b.getD j 0 := by
  rw [List.getD_eq_getElem?_getD, List.getElem?_append_right (Nat.le_add_right _ _),
    Nat.add_sub_cancel_left, List.getD_eq_getElem?_getD]

/-! ## TCP -/

/-- The header of a TCP segment. -/
structure TcpHeader where
  srcPort : UInt16
  dstPort : UInt16
  seq : UInt32
  ackSeq : UInt32
  /-- The four bits beside the data offset. -/
  reserved : Fin 16
  fin : Bool
  syn : Bool
  rst : Bool
  psh : Bool
  ack : Bool
  urg : Bool
  ece : Bool
  cwr : Bool
  window : UInt16
  checksum : UInt16
  urgent : UInt16
  options : Bytes
  /-- The options, in words of four bytes. -/
  words : Fin 11
  options_length : options.length = 4 * words

namespace TcpHeader

def flagsByte (fin syn rst psh ack urg ece cwr : Bool) : UInt8 :=
  (fin.toNat + syn.toNat * 2 + rst.toNat * 4 + psh.toNat * 8 + ack.toNat * 16 + urg.toNat * 32 +
    ece.toNat * 64 + cwr.toNat * 128).toUInt8

/-- The flags of a header. -/
def flags (t : TcpHeader) : UInt8 :=
  flagsByte t.fin t.syn t.rst t.psh t.ack t.urg t.ece t.cwr

/-- The header's length in words of four bytes. -/
def dataOffset (t : TcpHeader) : Fin 16 := ⟨5 + t.words, by omega⟩

/-- The bytes of the header and its payload. -/
def encode (t : TcpHeader) (payload : Bytes) : Bytes :=
  be16Bytes t.srcPort.toNat ++ be16Bytes t.dstPort.toNat ++ be32Bytes t.seq ++
    be32Bytes t.ackSeq ++ [nibbles t.dataOffset t.reserved, t.flags] ++
    be16Bytes t.window.toNat ++ be16Bytes t.checksum.toNat ++ be16Bytes t.urgent.toNat ++
    (t.options ++ payload)

/-- The segment between two addresses. -/
def segment (t : TcpHeader) (src dst payload : Bytes) : TcpSegment where
  src := ⟨src, t.srcPort.toNat⟩
  dst := ⟨dst, t.dstPort.toNat⟩
  seq := t.seq
  syn := t.syn
  fin := t.fin
  ack := t.ack
  rst := t.rst
  payload := payload

theorem flagsByte_bits (fin syn rst psh ack urg ece cwr : Bool) :
    (flagsByte fin syn rst psh ack urg ece cwr &&& 0x01 != 0) = fin ∧
      (flagsByte fin syn rst psh ack urg ece cwr &&& 0x02 != 0) = syn ∧
      (flagsByte fin syn rst psh ack urg ece cwr &&& 0x04 != 0) = rst ∧
      (flagsByte fin syn rst psh ack urg ece cwr &&& 0x10 != 0) = ack := by
  revert fin syn rst psh ack urg ece cwr
  decide

theorem length_encode (t : TcpHeader) (payload : Bytes) :
    (t.encode payload).length = 20 + t.options.length + payload.length := by
  simp only [encode, be16Bytes, be32Bytes, List.length_append, List.length_cons, List.length_nil]
  omega

theorem parseTcp_encode (t : TcpHeader) (src dst payload : Bytes) :
    parseTcp src dst (t.encode payload) = some (t.segment src dst payload) := by
  have hlength := t.length_encode payload
  have hdoff : ((t.encode payload).getD 12 0 >>> 4).toNat * 4 = 20 + t.options.length := by
    have hnibble : ((t.encode payload).getD 12 0 >>> 4).toNat = t.dataOffset :=
      nibbles_high t.dataOffset t.reserved
    have hoffset : (t.dataOffset : ℕ) = 5 + t.words := rfl
    rw [hnibble, t.options_length, hoffset]
    omega
  have hsrc : be16At (t.encode payload) 0 = t.srcPort.toNat := be16_port t.srcPort
  have hdst : be16At (t.encode payload) 2 = t.dstPort.toNat := be16_port t.dstPort
  have hseq : be32At (t.encode payload) 4 = t.seq := be32_bytes t.seq
  have hpayload : (t.encode payload).drop (20 + t.options.length) = payload := by
    rw [← List.drop_drop]
    exact List.drop_left
  obtain ⟨hfin, hsyn, hrst, hack⟩ := flagsByte_bits t.fin t.syn t.rst t.psh t.ack t.urg t.ece t.cwr
  have hflags : (t.encode payload).getD 13 0 = t.flags := rfl
  unfold parseTcp
  dsimp only
  rw [hdoff, hflags, if_neg (by omega), if_neg (by omega), hsrc, hdst, hseq, hpayload, flags, hfin,
    hsyn, hrst, hack]
  rfl

end TcpHeader

/-! ## IP -/

/-- An IPv4 header without fragmentation. -/
structure Ipv4Header where
  tos : UInt8
  ident : UInt16
  reservedBit : Bool
  dontFragment : Bool
  ttl : UInt8
  checksum : UInt16
  src : Bytes
  dst : Bytes
  options : Bytes
  /-- The options, in words of four bytes. -/
  words : Fin 11
  src_length : src.length = 4
  dst_length : dst.length = 4
  options_length : options.length = 4 * words

namespace Ipv4Header

def headerWords (h : Ipv4Header) : Fin 16 := ⟨5 + h.words, by omega⟩

/-- The flags in front of a fragment offset of zero. -/
def fragmentByte (h : Ipv4Header) : UInt8 :=
  (h.reservedBit.toNat * 0x80 + h.dontFragment.toNat * 0x40).toUInt8

def totalLength (h : Ipv4Header) (tcp : Bytes) : ℕ := 20 + h.options.length + tcp.length

/-- The header up to the addresses. -/
def front (h : Ipv4Header) (tcp : Bytes) : Bytes :=
  [nibbles 4 h.headerWords, h.tos] ++ be16Bytes (h.totalLength tcp) ++ be16Bytes h.ident.toNat ++
    [h.fragmentByte, 0, h.ttl, 6] ++ be16Bytes h.checksum.toNat

/-- The datagram around a TCP segment. -/
def encode (h : Ipv4Header) (tcp : Bytes) : Bytes :=
  h.front tcp ++ (h.src ++ (h.dst ++ (h.options ++ tcp)))

theorem isFragmentWord_fragmentByte (h : Ipv4Header) :
    isFragmentWord (be16 h.fragmentByte 0) = false := by
  rw [fragmentByte]
  cases h.reservedBit <;> cases h.dontFragment <;> decide

theorem length_encode (h : Ipv4Header) (tcp : Bytes) :
    (h.encode tcp).length = h.totalLength tcp := by
  have hfront : (h.front tcp).length = 12 := rfl
  rw [encode, totalLength, List.length_append, List.length_append, List.length_append,
    List.length_append, hfront, h.src_length, h.dst_length]
  omega

theorem parseIpv4_encode (h : Ipv4Header) {tcp : Bytes} (hfits : h.totalLength tcp < 2 ^ 16)
    (padding : Bytes) :
    parseIpv4 (h.encode tcp ++ padding) = some (v4mapped h.src, v4mapped h.dst, tcp) := by
  have hfront : (h.front tcp).length = 12 := rfl
  have hdatagram : h.encode tcp ++ padding =
      h.front tcp ++ (h.src ++ (h.dst ++ (h.options ++ (tcp ++ padding)))) := by
    simp only [encode, List.append_assoc]
  have hlength : (h.encode tcp ++ padding).length = h.totalLength tcp + padding.length := by
    rw [List.length_append, length_encode]
  have htotal : be16At (h.encode tcp ++ padding) 2 = h.totalLength tcp :=
    (be16_bytes _).trans (Nat.mod_eq_of_lt hfits)
  have hihl : ((h.encode tcp ++ padding).getD 0 0 &&& 0x0f).toNat * 4 = 20 + h.options.length := by
    have hnibble : ((h.encode tcp ++ padding).getD 0 0 &&& 0x0f).toNat = h.headerWords :=
      nibbles_low 4 h.headerWords
    have hwords : (h.headerWords : ℕ) = 5 + h.words := rfl
    rw [hnibble, h.options_length, hwords]
    omega
  have hfragment : isFragmentWord (be16At (h.encode tcp ++ padding) 6) = false :=
    h.isFragmentWord_fragmentByte
  have hprotocol : (h.encode tcp ++ padding).getD 9 0 = 6 := rfl
  have hsrc : sliceOf (h.encode tcp ++ padding) 12 16 = h.src := by
    rw [hdatagram]
    exact sliceOf_append hfront (by rw [h.src_length])
  have hdst : sliceOf (h.encode tcp ++ padding) 16 20 = h.dst := by
    rw [hdatagram, ← List.append_assoc]
    refine sliceOf_append ?_ (by rw [h.dst_length])
    rw [List.length_append, hfront, h.src_length]
  have htcp : sliceOf (h.encode tcp ++ padding) (20 + h.options.length) (h.totalLength tcp) =
      tcp := by
    rw [hdatagram, ← List.append_assoc, ← List.append_assoc, ← List.append_assoc]
    refine sliceOf_append ?_ rfl
    rw [List.length_append, List.length_append, List.length_append, hfront, h.src_length,
      h.dst_length]
  have hle : 20 + h.options.length ≤ h.totalLength tcp := Nat.le_add_right _ _
  unfold parseIpv4
  dsimp only
  rw [hihl, htotal, hfragment, hprotocol, if_neg (by omega), if_neg (by omega),
    if_neg Bool.false_ne_true, if_neg (not_not.mpr rfl), if_pos (by omega), hsrc, hdst, htcp]

end Ipv4Header

/-- The extension headers that the parser walks over. -/
inductive ExtensionKind where
  | hopByHop
  | routing
  | destination

def ExtensionKind.protocol : ExtensionKind → UInt8
  | .hopByHop => 0
  | .routing => 43
  | .destination => 60

/-- An extension header: the next header's protocol and its own length are in front of the body. -/
structure ExtensionHeader where
  kind : ExtensionKind
  /-- The length in units of eight bytes, less one. -/
  units : UInt8
  body : Bytes
  body_length : body.length + 2 = (units.toNat + 1) * 8

/-- The protocol of the first header of a chain, TCP behind the last. -/
def chainProtocol : List ExtensionHeader → UInt8
  | [] => 6
  | e :: _ => e.kind.protocol

/-- A chain of extension headers. -/
def chainBytes : List ExtensionHeader → Bytes
  | [] => []
  | e :: es => chainProtocol es :: e.units :: e.body ++ chainBytes es

theorem length_extension (e : ExtensionHeader) (es : List ExtensionHeader) :
    (chainProtocol es :: e.units :: e.body).length = (e.units.toNat + 1) * 8 := e.body_length

/-- The walk ends behind the chain. -/
theorem tcpOffset_chain (es : List ExtensionHeader) (front tcp : Bytes) :
    tcpOffset (front ++ (chainBytes es ++ tcp)) (chainProtocol es) front.length =
      some (front.length + (chainBytes es).length) := by
  induction es generalizing front with
  | nil =>
    rw [tcpOffset, chainProtocol, if_pos rfl]
    rfl
  | cons e es ih =>
    have hheader := length_extension e es
    have hsplit : front ++ (chainBytes (e :: es) ++ tcp) =
        (front ++ (chainProtocol es :: e.units :: e.body)) ++ (chainBytes es ++ tcp) := by
      simp only [chainBytes, List.append_assoc]
    have hnext : (front ++ (chainBytes (e :: es) ++ tcp)).getD front.length 0 = chainProtocol es :=
      getD_append front _ 0
    have hunits : (front ++ (chainBytes (e :: es) ++ tcp)).getD (front.length + 1) 0 = e.units :=
      getD_append front _ 1
    have hlength : (front ++ (chainBytes (e :: es) ++ tcp)).length =
        front.length + (e.units.toNat + 1) * 8 + (chainBytes es ++ tcp).length := by
      rw [hsplit, List.length_append, List.length_append, hheader]
    have hwalked : chainProtocol (e :: es) ≠ 6 ∧ (chainProtocol (e :: es) = 0 ∨
        chainProtocol (e :: es) = 43 ∨ chainProtocol (e :: es) = 60) := by
      rw [chainProtocol]
      cases e.kind <;> decide
    rw [tcpOffset, if_neg hwalked.1, if_pos hwalked.2]
    dsimp only
    rw [hunits, hnext, hlength, if_neg (by omega), if_neg (by omega), hsplit]
    have hbehind := ih (front ++ (chainProtocol es :: e.units :: e.body))
    rw [List.length_append, hheader] at hbehind
    rw [hbehind, chainBytes, List.length_append, hheader, Nat.add_assoc]

/-- An IPv6 header. -/
structure Ipv6Header where
  /-- The upper half of the traffic class. -/
  classHigh : Fin 16
  /-- The lower half and the flow label. -/
  flow : Fin 3 → UInt8
  hopLimit : UInt8
  src : Bytes
  dst : Bytes
  extensions : List ExtensionHeader
  src_length : src.length = 16
  dst_length : dst.length = 16

namespace Ipv6Header

def payloadLength (h : Ipv6Header) (tcp : Bytes) : ℕ :=
  (chainBytes h.extensions).length + tcp.length

/-- The header up to the addresses. -/
def front (h : Ipv6Header) (tcp : Bytes) : Bytes :=
  [nibbles 6 h.classHigh, h.flow 0, h.flow 1, h.flow 2] ++ be16Bytes (h.payloadLength tcp) ++
    [chainProtocol h.extensions, h.hopLimit]

/-- The datagram around a TCP segment. -/
def encode (h : Ipv6Header) (tcp : Bytes) : Bytes :=
  h.front tcp ++ (h.src ++ (h.dst ++ (chainBytes h.extensions ++ tcp)))

theorem length_encode (h : Ipv6Header) (tcp : Bytes) :
    (h.encode tcp).length = 40 + h.payloadLength tcp := by
  have hfront : (h.front tcp).length = 8 := rfl
  rw [encode, payloadLength, List.length_append, List.length_append, List.length_append,
    List.length_append, hfront, h.src_length, h.dst_length]
  omega

theorem parseIpv6_encode (h : Ipv6Header) {tcp : Bytes} (hfits : h.payloadLength tcp < 2 ^ 16)
    (padding : Bytes) : parseIpv6 (h.encode tcp ++ padding) = some (h.src, h.dst, tcp) := by
  have hfront : (h.front tcp).length = 8 := rfl
  have hdatagram : h.encode tcp ++ padding =
      h.front tcp ++ (h.src ++ (h.dst ++ (chainBytes h.extensions ++ (tcp ++ padding)))) := by
    simp only [encode, List.append_assoc]
  have hlength : (h.encode tcp ++ padding).length = 40 + h.payloadLength tcp + padding.length := by
    rw [List.length_append, length_encode]
  have hpayload : be16At (h.encode tcp ++ padding) 4 = h.payloadLength tcp :=
    (be16_bytes _).trans (Nat.mod_eq_of_lt hfits)
  have hsrc : sliceOf (h.encode tcp ++ padding) 8 24 = h.src := by
    rw [hdatagram]
    exact sliceOf_append hfront (by rw [h.src_length])
  have hdst : sliceOf (h.encode tcp ++ padding) 24 40 = h.dst := by
    rw [hdatagram, ← List.append_assoc]
    refine sliceOf_append ?_ (by rw [h.dst_length])
    rw [List.length_append, hfront, h.src_length]
  have hhead : (h.front tcp ++ h.src ++ h.dst).length = 40 := by
    rw [List.length_append, List.length_append, hfront, h.src_length, h.dst_length]
  have hoffset : tcpOffset (h.encode tcp ++ padding) ((h.encode tcp ++ padding).getD 6 0) 40 =
      some (40 + (chainBytes h.extensions).length) := by
    have hprotocol : (h.encode tcp ++ padding).getD 6 0 = chainProtocol h.extensions := rfl
    have hwalk := tcpOffset_chain h.extensions (h.front tcp ++ h.src ++ h.dst) (tcp ++ padding)
    rw [hhead] at hwalk
    rw [hprotocol, hdatagram, ← List.append_assoc, ← List.append_assoc]
    exact hwalk
  have htcp : sliceOf (h.encode tcp ++ padding) (40 + (chainBytes h.extensions).length)
      (40 + h.payloadLength tcp) = tcp := by
    rw [hdatagram, ← List.append_assoc, ← List.append_assoc, ← List.append_assoc]
    refine sliceOf_append ?_ (Nat.add_assoc _ _ _)
    rw [List.length_append, hhead]
  have hstop : min (40 + h.payloadLength tcp) (40 + h.payloadLength tcp + padding.length) =
      40 + h.payloadLength tcp := min_eq_left (Nat.le_add_right _ _)
  have hchain : (chainBytes h.extensions).length ≤ h.payloadLength tcp := Nat.le_add_right _ _
  unfold parseIpv6
  rw [hoffset]
  dsimp only
  rw [hpayload, hlength, hstop, if_neg (by omega), if_neg (by omega), hsrc, hdst, htcp]

end Ipv6Header

/-- The header of a datagram. -/
inductive IpHeader where
  | v4 (h : Ipv4Header)
  | v6 (h : Ipv6Header)

namespace IpHeader

def etherType : IpHeader → ℕ
  | v4 _ => 0x0800
  | v6 _ => 0x86dd

def encode (tcp : Bytes) : IpHeader → Bytes
  | v4 h => h.encode tcp
  | v6 h => h.encode tcp

/-- The length is one that the header's 16-bit field can hold. -/
def Fits (tcp : Bytes) : IpHeader → Prop
  | v4 h => h.totalLength tcp < 2 ^ 16
  | v6 h => h.payloadLength tcp < 2 ^ 16

/-- The addresses, in the 16-byte form. -/
def src : IpHeader → Bytes
  | v4 h => v4mapped h.src
  | v6 h => h.src

def dst : IpHeader → Bytes
  | v4 h => v4mapped h.dst
  | v6 h => h.dst

/-- The parser takes the padding off and finds the segment. -/
theorem parseIpTcp_encode {h : IpHeader} {t : TcpHeader} {payload : Bytes}
    (hfits : h.Fits (t.encode payload)) (padding : Bytes) :
    parseIpTcp (h.encode (t.encode payload) ++ padding) =
      some (t.segment h.src h.dst payload) := by
  cases h with
  | v4 h =>
    have hversion : nibbles 4 h.headerWords >>> 4 = 4 :=
      UInt8.toNat_inj.mp (nibbles_high 4 h.headerWords)
    have hhead : (h.encode (t.encode payload) ++ padding).head? =
        some (nibbles 4 h.headerWords) := rfl
    rw [encode, parseIpTcp, hhead]
    dsimp only
    rw [if_pos hversion, h.parseIpv4_encode hfits padding]
    exact t.parseTcp_encode _ _ payload
  | v6 h =>
    have hversion : nibbles 6 h.classHigh >>> 4 = 6 :=
      UInt8.toNat_inj.mp (nibbles_high 6 h.classHigh)
    have hhead :
        (h.encode (t.encode payload) ++ padding).head? = some (nibbles 6 h.classHigh) := rfl
    rw [encode, parseIpTcp, hhead]
    dsimp only
    rw [hversion, if_neg (by decide), if_pos rfl, h.parseIpv6_encode hfits padding]
    exact t.parseTcp_encode _ _ payload

end IpHeader

/-! ## Link layers -/

/-- A VLAN tag. -/
structure VlanTag where
  /-- 802.1ad, as against 802.1Q. -/
  service : Bool
  control : UInt16

def VlanTag.encode (t : VlanTag) : Bytes :=
  (if t.service then [0x88, 0xa8] else [0x81, 0x00]) ++ be16Bytes t.control.toNat

/-- The link layers that a capture can have. -/
inductive LinkLayer where
  | ethernet (macs : Bytes) (tags : List VlanTag) (h : macs.length = 12)
  | sll (header : Bytes) (h : header.length = 14)
  | sll2 (header : Bytes) (h : header.length = 18)
  | raw
  | null (family : Bytes) (h : family.length = 4)
  | loop (family : Bytes) (h : family.length = 4)

namespace LinkLayer

def linktype : LinkLayer → ℤ
  | ethernet .. => LINKTYPE_ETHERNET
  | sll .. => LINKTYPE_LINUX_SLL
  | sll2 .. => LINKTYPE_LINUX_SLL2
  | raw => LINKTYPE_RAW
  | null .. => LINKTYPE_NULL
  | loop .. => LINKTYPE_LOOP

/-- The frame around what follows the link layer. -/
def encode (etherType : ℕ) (rest : Bytes) : LinkLayer → Bytes
  | ethernet macs tags _ => macs ++ (tags.flatMap VlanTag.encode ++ (be16Bytes etherType ++ rest))
  | sll header _ => header ++ (be16Bytes etherType ++ rest)
  | sll2 header _ => be16Bytes etherType ++ (header ++ rest)
  | raw => rest
  | null family _ => family ++ rest
  | loop family _ => family ++ rest

/-- The walk over the tags ends behind the ethertype. -/
theorem afterEthertype_tags (tags : List VlanTag) {etherType : ℕ}
    (h : isIpEthertype etherType = true) (rest : Bytes) :
    afterEthertype (tags.flatMap VlanTag.encode ++ (be16Bytes etherType ++ rest)) = some rest := by
  induction tags with
  | nil =>
    have hlt : etherType < 2 ^ 16 ∧ etherType ≠ 0x8100 ∧ etherType ≠ 0x88a8 := by
      simp only [isIpEthertype, Bool.or_eq_true, decide_eq_true_eq] at h
      omega
    have htype : be16 (etherType / 2 ^ 8).toUInt8 etherType.toUInt8 = etherType := by
      rw [be16_bytes, Nat.mod_eq_of_lt hlt.1]
    change afterEthertype ((etherType / 2 ^ 8).toUInt8 :: etherType.toUInt8 :: rest) = some rest
    rw [afterEthertype, htype, if_neg (by omega), if_pos h]
  | cons tag tags ih =>
    rw [List.flatMap_cons, List.append_assoc]
    obtain ⟨service, control⟩ := tag
    cases service
    · change afterEthertype (0x81 :: 0x00 :: _ :: _ :: _) = _
      rw [afterEthertype, if_pos (by decide)]
      exact ih
    · change afterEthertype (0x88 :: 0xa8 :: _ :: _ :: _) = _
      rw [afterEthertype, if_pos (by decide)]
      exact ih

/-- The bytes of an IP ethertype are read back. -/
theorem be16At_etherType {etherType : ℕ} (h : isIpEthertype etherType = true)
    (front : Bytes) {i : ℕ} (hfront : front.length = i) (rest : Bytes) :
    be16At (front ++ (be16Bytes etherType ++ rest)) i = etherType := by
  have hlt : etherType < 2 ^ 16 := by
    simp only [isIpEthertype, Bool.or_eq_true, decide_eq_true_eq] at h
    omega
  obtain rfl := hfront
  have hhigh := getD_append front (be16Bytes etherType ++ rest) 0
  have hlow := getD_append front (be16Bytes etherType ++ rest) 1
  rw [Nat.add_zero] at hhigh
  rw [be16At, hhigh, hlow]
  exact (be16_bytes etherType).trans (Nat.mod_eq_of_lt hlt)

theorem stripLink_encode (l : LinkLayer) {etherType : ℕ} (h : isIpEthertype etherType = true)
    (rest : Bytes) : stripLink l.linktype (l.encode etherType rest) = some rest := by
  -- each header has the length that is tested and the type where it is looked for
  cases l with
  | ethernet macs tags hmacs =>
    have hlength :
        14 ≤ (macs ++ (tags.flatMap VlanTag.encode ++ (be16Bytes etherType ++ rest))).length := by
      have htype : (be16Bytes etherType).length = 2 := rfl
      rw [List.length_append, List.length_append, List.length_append, hmacs, htype]
      omega
    rw [linktype, encode, stripLink, if_pos rfl, if_neg (not_lt.mpr hlength), ← hmacs,
      List.drop_left]
    exact afterEthertype_tags tags h rest
  | sll header hheader =>
    have hread := be16At_etherType h header hheader rest
    have hlength : (header ++ (be16Bytes etherType ++ rest)).length = 16 + rest.length := by
      rw [List.length_append, List.length_append, hheader, ← Nat.add_assoc]
      rfl
    rw [linktype, encode, stripLink, if_neg (by decide), if_pos rfl, hread, if_pos h,
      if_neg (by omega), ← List.append_assoc]
    exact congrArg some (List.drop_left' (by rw [List.length_append, hheader]; rfl))
  | sll2 header hheader =>
    have hread : be16At (be16Bytes etherType ++ (header ++ rest)) 0 = etherType :=
      be16At_etherType h [] rfl (header ++ rest)
    have hlength : (be16Bytes etherType ++ (header ++ rest)).length = 20 + rest.length := by
      rw [List.length_append, List.length_append, hheader, ← Nat.add_assoc]
      rfl
    rw [linktype, encode, stripLink, if_neg (by decide), if_neg (by decide), if_pos rfl, hread,
      if_pos h, if_neg (by omega), ← List.append_assoc]
    exact congrArg some (List.drop_left' (by rw [List.length_append, hheader]; rfl))
  | raw => rfl
  | null family hfamily =>
    have hlength : ¬(family ++ rest).length < 4 := by
      rw [List.length_append, hfamily]
      omega
    rw [linktype, encode, stripLink, if_neg (by decide), if_neg (by decide), if_neg (by decide),
      if_neg (by decide), if_pos (Or.inl rfl), if_neg hlength]
    exact congrArg some (List.drop_left' hfamily)
  | loop family hfamily =>
    have hlength : ¬(family ++ rest).length < 4 := by
      rw [List.length_append, hfamily]
      omega
    rw [linktype, encode, stripLink, if_neg (by decide), if_neg (by decide), if_neg (by decide),
      if_neg (by decide), if_pos (Or.inr rfl), if_neg hlength]
    exact congrArg some (List.drop_left' hfamily)

end LinkLayer

/-- **Parsing undoes encoding**: behind every link layer, every IP header and every TCP header the
parser finds the segment that was sent, whatever stands behind it. -/
theorem parseIpTcp_stripLink (l : LinkLayer) (h : IpHeader) (t : TcpHeader)
    (payload padding : Bytes) (hfits : h.Fits (t.encode payload)) :
    (stripLink l.linktype (l.encode h.etherType (h.encode (t.encode payload) ++ padding))).bind
      parseIpTcp = some (t.segment h.src h.dst payload) := by
  have hether : isIpEthertype h.etherType = true := by cases h <;> rfl
  rw [l.stripLink_encode hether]
  exact IpHeader.parseIpTcp_encode hfits padding

/-- A header with a timestamp option. -/
def sampleTcp : TcpHeader where
  srcPort := 40000
  dstPort := 3306
  seq := 0xfffffff0
  ackSeq := 7
  reserved := 0
  fin := false
  syn := false
  rst := false
  psh := true
  ack := true
  urg := false
  ece := false
  cwr := false
  window := 512
  checksum := 0
  urgent := 0
  options := [1, 1, 8, 10, 0, 0, 0, 1, 0, 0, 0, 2]
  words := 3
  options_length := rfl

/-- A header with a chain of two extensions. -/
def sampleIpv6 : Ipv6Header where
  classHigh := 0
  flow := fun _ ↦ 0
  hopLimit := 64
  src := List.replicate 16 1
  dst := List.replicate 16 2
  extensions := [⟨.hopByHop, 0, List.replicate 6 0, rfl⟩,
    ⟨.destination, 1, List.replicate 14 0, rfl⟩]
  src_length := rfl
  dst_length := rfl

theorem parseIpTcp_stripLink_sample :
    (IpHeader.v6 sampleIpv6).Fits (sampleTcp.encode (ascii "select")) ∧
      (stripLink LINKTYPE_ETHERNET
        ((LinkLayer.ethernet (List.replicate 12 0) [⟨true, 5⟩, ⟨false, 6⟩] rfl).encode 0x86dd
          (sampleIpv6.encode (sampleTcp.encode (ascii "select")) ++ [0, 0, 0]))).bind parseIpTcp =
      some (sampleTcp.segment (List.replicate 16 1) (List.replicate 16 2) (ascii "select")) := by
  have hfits : (IpHeader.v6 sampleIpv6).Fits (sampleTcp.encode (ascii "select")) := by
    show sampleIpv6.payloadLength (sampleTcp.encode (ascii "select")) < 2 ^ 16
    decide
  exact ⟨hfits, parseIpTcp_stripLink (.ethernet (List.replicate 12 0) [⟨true, 5⟩, ⟨false, 6⟩] rfl)
    (.v6 sampleIpv6) sampleTcp (ascii "select") [0, 0, 0] hfits⟩

end SqlReplay
