import SqlReplay.Data.Checked
import SqlReplay.Data.Loop
import SqlReplay.Pcap.Frame

/-!
# Frames of any content

Every length in a frame is the sender's word: the header length and the total length of an IPv4
datagram, the lengths of IPv6 extension headers and the payload length beside them, the data offset
of a segment. They are tested against the frame and against one another at different points, and a
frame may be cut short anywhere.

The parsing functions once more, with every index, slice and copy checked and the two loops as steps
on their variables. Whatever the bytes are, they compute what the plain functions do, within as many
iterations as the frame has bytes (`frameParsing_safe`). Each loop has one invariant: its position
is inside the frame, and from there on the plain function finds what it finds from the start.
Positions are natural numbers: they pass the end by no more than one header before they are tested.
-/

namespace SqlReplay

/-! ## The checked functions -/

/-- `u16::from_be_bytes([b[i], b[i + 1]])`. -/
def be16Checked (b : Bytes) (i : ℕ) : Option ℕ := do
  let hi ← Checked.index b i
  let lo ← Checked.index b (i + 1)
  some (be16 hi lo)

/-- An iteration of the loop over VLAN tags; its variables are `off` and `ethertype`. The loop is
left where the tags end, or with nothing where the frame does. -/
def vlanStep (frame : Bytes) (s : ℕ × ℕ) : Option (Iteration (ℕ × ℕ) (Option (ℕ × ℕ))) :=
  if s.2 = 0x8100 ∨ s.2 = 0x88a8 then
    if frame.length < s.1 + 4 + 2 then some (.done none)
    else do
      let ethertype ← be16Checked frame (s.1 + 4)
      some (.next (s.1 + 4, ethertype))
  else some (.done (some s))

/-- The datagram behind an ethertype at `i`, or nothing for another protocol. -/
def datagramChecked (frame : Bytes) (i start : ℕ) : Option (Option Bytes) := do
  let ethertype ← be16Checked frame i
  if isIpEthertype ethertype then do
    let ip ← Checked.sliceFrom frame start
    some (some ip)
  else some none

/-- `strip_link`, every index and slice checked, its loop given `fuel` iterations. -/
def stripLinkChecked (fuel : ℕ) (linktype : ℤ) (frame : Bytes) : Option (Option Bytes) :=
  if linktype = LINKTYPE_ETHERNET then
    if frame.length < 14 then some none
    else do
      let ethertype ← be16Checked frame 12
      match ← Loop.run (vlanStep frame) fuel (12, ethertype) with
      | none => some none
      | some (off, ethertype) =>
        if isIpEthertype ethertype then do
          let ip ← Checked.sliceFrom frame (off + 2)
          some (some ip)
        else some none
  else if linktype = LINKTYPE_LINUX_SLL then
    if frame.length < 16 then some none else datagramChecked frame 14 16
  else if linktype = LINKTYPE_LINUX_SLL2 then
    if frame.length < 20 then some none else datagramChecked frame 0 20
  else if linktype = LINKTYPE_RAW then some (some frame)
  else if linktype = LINKTYPE_NULL ∨ linktype = LINKTYPE_LOOP then
    if frame.length < 4 then some none
    else do
      let ip ← Checked.sliceFrom frame 4
      some (some ip)
  else some none

/-- `is_ip_fragment`, every index checked. -/
def isIpFragmentChecked (ip : Bytes) : Option Bool :=
  match ip.head? with
  | none => some false
  | some b =>
    if b >>> 4 = 4 ∧ 8 ≤ ip.length then do
      let frag ← be16Checked ip 6
      some (isFragmentWord frag)
    else if b >>> 4 = 6 ∧ 40 ≤ ip.length then do
      let next ← Checked.index ip 6
      some (next == 44)
    else some false

/-- `v4mapped`: the slice is copied into four bytes. -/
def v4mappedChecked (a : Bytes) : Option Bytes := do
  let s ← Checked.slice a 0 4
  let s ← Checked.exactly 4 s
  some (List.replicate 10 0 ++ [0xff, 0xff] ++ s)

/-- The IPv4 arm of `parse_ip_tcp`. -/
def parseIpv4Checked (ip : Bytes) : Option (Option (Bytes × Bytes × Bytes)) :=
  if ip.length < 20 then some none
  else do
    let first ← Checked.index ip 0
    let ihl := (first &&& 0x0f).toNat * 4
    if ihl < 20 ∨ ip.length < ihl then some none
    else do
      let frag ← be16Checked ip 6
      if isFragmentWord frag then some none
      else do
        let protocol ← Checked.index ip 9
        if protocol ≠ 6 then some none
        else do
          let total ← be16Checked ip 2
          let stop := if ihl ≤ total ∧ total ≤ ip.length then total else ip.length
          let src ← Checked.slice ip 12 16
          let src ← v4mappedChecked src
          let dst ← Checked.slice ip 16 20
          let dst ← v4mappedChecked dst
          let tcp ← Checked.slice ip ihl stop
          some (some (src, dst, tcp))

/-- An iteration of the loop over extension headers; its variables are `next` and `off`. The loop is
left at the TCP header, or with nothing. -/
def extensionStep (ip : Bytes) (s : UInt8 × ℕ) : Option (Iteration (UInt8 × ℕ) (Option ℕ)) :=
  if s.1 = 6 then some (.done (some s.2))
  else if s.1 = 0 ∨ s.1 = 43 ∨ s.1 = 60 then
    if ip.length < s.2 + 8 then some (.done none)
    else do
      let next ← Checked.index ip s.2
      let len ← Checked.index ip (s.2 + 1)
      let off := s.2 + (len.toNat + 1) * 8
      if ip.length < off then some (.done none) else some (.next (next, off))
  else some (.done none)

/-- The IPv6 arm of `parse_ip_tcp`: the addresses are copied into sixteen bytes. -/
def parseIpv6Checked (fuel : ℕ) (ip : Bytes) : Option (Option (Bytes × Bytes × Bytes)) :=
  if ip.length < 40 then some none
  else do
    let next ← Checked.index ip 6
    match ← Loop.run (extensionStep ip) fuel (next, 40) with
    | none => some none
    | some off => do
      let payloadLen ← be16Checked ip 4
      let stop := min (40 + payloadLen) ip.length
      if stop < off then some none
      else do
        let src ← Checked.slice ip 8 24
        let src ← Checked.exactly 16 src
        let dst ← Checked.slice ip 24 40
        let dst ← Checked.exactly 16 dst
        let tcp ← Checked.slice ip off stop
        some (some (src, dst, tcp))

/-- `u32::from_be_bytes` of the four bytes from `i` on. -/
def be32Checked (b : Bytes) (i : ℕ) : Option UInt32 := do
  let hi ← be16Checked b i
  let lo ← be16Checked b (i + 2)
  some (hi * 2 ^ 16 + lo).toUInt32

/-- The TCP segment of the given addresses. -/
def parseTcpChecked (src dst tcp : Bytes) : Option (Option TcpSegment) :=
  if tcp.length < 20 then some none
  else do
    let offset ← Checked.index tcp 12
    let doff := (offset >>> 4).toNat * 4
    if doff < 20 ∨ tcp.length < doff then some none
    else do
      let flags ← Checked.index tcp 13
      let srcPort ← be16Checked tcp 0
      let dstPort ← be16Checked tcp 2
      let seq ← be32Checked tcp 4
      let payload ← Checked.sliceFrom tcp doff
      some (some
        { src := ⟨src, srcPort⟩
          dst := ⟨dst, dstPort⟩
          seq := seq
          fin := flags &&& 0x01 != 0
          syn := flags &&& 0x02 != 0
          rst := flags &&& 0x04 != 0
          ack := flags &&& 0x10 != 0
          payload := payload })

/-- The match of `parse_ip_tcp` on the version: the two addresses and the TCP bytes. -/
def addressedChecked (fuel : ℕ) (version : UInt8) (ip : Bytes) :
    Option (Option (Bytes × Bytes × Bytes)) :=
  if version = 4 then parseIpv4Checked ip
  else if version = 6 then parseIpv6Checked fuel ip
  else some none

/-- `parse_ip_tcp`, every index, slice and copy checked, its loop given `fuel` iterations. -/
def parseIpTcpChecked (fuel : ℕ) (ip : Bytes) : Option (Option TcpSegment) :=
  match ip.head? with
  | none => some none
  | some b => do
    match ← addressedChecked fuel (b >>> 4) ip with
    | none => some none
    | some (src, dst, tcp) => parseTcpChecked src dst tcp

/-! ## The link layer -/

theorem be16Checked_eq {b : Bytes} {i : ℕ} (h : i + 2 ≤ b.length) :
    be16Checked b i = some (be16At b i) := by
  have hhi := Checked.index_of_lt b i 0 (by omega)
  have hlo := Checked.index_of_lt b (i + 1) 0 (by omega)
  simp only [be16Checked, hhi, hlo, be16At, bind, Option.bind_some]

/-- A frame that ends before its ethertype. -/
theorem afterEthertype_of_short {b : Bytes} (h : b.length < 2) : afterEthertype b = none := by
  rcases b with _ | ⟨_, _ | ⟨_, rest⟩⟩
  · simp [afterEthertype]
  · simp [afterEthertype]
  · rw [List.length_cons, List.length_cons] at h
    omega

/-- One tag, seen from its position in the frame. -/
theorem afterEthertype_drop {frame : Bytes} {off : ℕ} (h : off + 2 ≤ frame.length) :
    afterEthertype (frame.drop off) =
      if be16At frame off = 0x8100 ∨ be16At frame off = 0x88a8 then
        afterEthertype (frame.drop (off + 4))
      else if isIpEthertype (be16At frame off) then some (frame.drop (off + 2))
      else none := by
  have h0 : off < frame.length := by omega
  have h1 : off + 1 < frame.length := by omega
  have hword : be16At frame off = be16 frame[off] frame[off + 1] := by
    rw [be16At, List.getD_eq_getElem?_getD, List.getD_eq_getElem?_getD,
      List.getElem?_eq_getElem h0, List.getElem?_eq_getElem h1, Option.getD_some, Option.getD_some]
  rw [List.drop_eq_getElem_cons h0, List.drop_eq_getElem_cons h1, afterEthertype, hword,
    List.drop_drop]

/-- What the loop's result stands for. -/
def datagramAt (frame : Bytes) (r : Option (ℕ × ℕ)) : Option Bytes :=
  r.bind fun s ↦ if isIpEthertype s.2 then some (frame.drop (s.1 + 2)) else none

/-- The variables of the loop: an ethertype of the frame, behind which the datagram of the frame
still is. -/
structure VlanInv (frame : Bytes) (ip : Option Bytes) (s : ℕ × ℕ) : Prop where
  inside : s.1 + 2 ≤ frame.length
  ethertype_eq : s.2 = be16At frame s.1
  after_eq : afterEthertype (frame.drop s.1) = ip

/-- The loop's result is the datagram, and is inside the frame. -/
structure VlanPost (frame : Bytes) (ip : Option Bytes) (r : Option (ℕ × ℕ)) : Prop where
  datagram_eq : datagramAt frame r = ip
  inside : ∀ s ∈ r, s.1 + 2 ≤ frame.length

theorem vlanStep_progress {frame : Bytes} {ip : Option Bytes} {s : ℕ × ℕ}
    (h : VlanInv frame ip s) :
    Loop.Progress (VlanInv frame ip) (fun s ↦ frame.length - s.1) (VlanPost frame ip) s
      (vlanStep frame s) := by
  obtain ⟨off, ethertype⟩ := s
  have hinside := h.inside
  have hafter := h.after_eq
  obtain rfl : ethertype = be16At frame off := h.ethertype_eq
  dsimp only at hinside hafter
  rw [afterEthertype_drop hinside] at hafter
  rw [vlanStep]
  by_cases htag : be16At frame off = 0x8100 ∨ be16At frame off = 0x88a8
  · rw [if_pos htag] at hafter ⊢
    by_cases hshort : frame.length < off + 4 + 2
    · rw [if_pos hshort]
      refine .done ⟨?_, fun _ hnone ↦ absurd hnone (Option.not_mem_none _)⟩
      rw [← hafter, afterEthertype_of_short (by rw [List.length_drop]; omega)]
      rfl
    · rw [if_neg hshort, be16Checked_eq (by omega)]
      refine .next ⟨by omega, rfl, hafter⟩ ?_
      dsimp only
      omega
  · rw [if_neg htag] at hafter ⊢
    refine .done ⟨hafter, fun s hs ↦ ?_⟩
    obtain rfl := Option.mem_some.mp hs
    exact hinside

theorem datagramChecked_eq {frame : Bytes} {i start : ℕ} (hi : i + 2 ≤ frame.length)
    (hstart : start ≤ frame.length) : datagramChecked frame i start =
      some (if isIpEthertype (be16At frame i) then some (frame.drop start) else none) := by
  rw [datagramChecked, be16Checked_eq hi, Checked.sliceFrom_of_le hstart]
  show (if isIpEthertype (be16At frame i) then some (some (frame.drop start)) else some none) = _
  split_ifs
  · rfl
  · rfl

/-- The arm of an Ethernet frame. -/
theorem ethernetChecked_eq {frame : Bytes} (h : 14 ≤ frame.length) (extra : ℕ) :
    ((be16Checked frame 12).bind fun ethertype ↦
      (Loop.run (vlanStep frame) (frame.length + extra) (12, ethertype)).bind fun r ↦
        match r with
        | none => some none
        | some (off, ethertype) =>
          if isIpEthertype ethertype then (Checked.sliceFrom frame (off + 2)).bind fun ip ↦
            some (some ip)
          else some none) = some (afterEthertype (frame.drop 12)) := by
  have hstart : VlanInv frame (afterEthertype (frame.drop 12)) (12, be16At frame 12) :=
    ⟨by omega, rfl, rfl⟩
  obtain ⟨r, hrun, hdatagram, hinside⟩ := Loop.run_of_invariant (fun s ↦ vlanStep_progress)
    (frame.length + extra) hstart (by dsimp only; omega)
  rw [be16Checked_eq (by omega), ← hdatagram, Option.bind_some, hrun, Option.bind_some]
  cases r with
  | none => rfl
  | some s =>
    dsimp only
    rw [Checked.sliceFrom_of_le (hinside s rfl), Option.bind_some]
    exact (apply_ite some _ _ _).symm

theorem stripLinkChecked_eq (linktype : ℤ) (frame : Bytes) (extra : ℕ) :
    stripLinkChecked (frame.length + extra) linktype frame = some (stripLink linktype frame) := by
  rw [stripLinkChecked, stripLink]
  by_cases heth : linktype = LINKTYPE_ETHERNET
  · rw [if_pos heth, if_pos heth]
    by_cases hshort : frame.length < 14
    · rw [if_pos hshort, if_pos hshort]
    · rw [if_neg hshort, if_neg hshort]
      exact ethernetChecked_eq (by omega) extra
  rw [if_neg heth, if_neg heth]
  by_cases hsll : linktype = LINKTYPE_LINUX_SLL
  · rw [if_pos hsll, if_pos hsll]
    by_cases hshort : frame.length < 16
    · rw [if_pos hshort, if_pos hshort]
    · rw [if_neg hshort, if_neg hshort, datagramChecked_eq (by omega) (by omega)]
  rw [if_neg hsll, if_neg hsll]
  by_cases hsll2 : linktype = LINKTYPE_LINUX_SLL2
  · rw [if_pos hsll2, if_pos hsll2]
    by_cases hshort : frame.length < 20
    · rw [if_pos hshort, if_pos hshort]
    · rw [if_neg hshort, if_neg hshort, datagramChecked_eq (by omega) (by omega)]
  rw [if_neg hsll2, if_neg hsll2]
  by_cases hraw : linktype = LINKTYPE_RAW
  · rw [if_pos hraw, if_pos hraw]
  rw [if_neg hraw, if_neg hraw]
  by_cases hnull : linktype = LINKTYPE_NULL ∨ linktype = LINKTYPE_LOOP
  · rw [if_pos hnull, if_pos hnull]
    by_cases hshort : frame.length < 4
    · rw [if_pos hshort, if_pos hshort]
    · rw [if_neg hshort, if_neg hshort, Checked.sliceFrom_of_le (by omega)]
      rfl
  · rw [if_neg hnull, if_neg hnull]

theorem isIpFragmentChecked_eq (ip : Bytes) : isIpFragmentChecked ip = some (isIpFragment ip) := by
  rw [isIpFragmentChecked, isIpFragment]
  cases ip.head? with
  | none => rfl
  | some b =>
    dsimp only
    by_cases h4 : b >>> 4 = 4 ∧ 8 ≤ ip.length
    · rw [if_pos h4, if_pos h4, be16Checked_eq h4.2]
      rfl
    rw [if_neg h4, if_neg h4]
    by_cases h6 : b >>> 4 = 6 ∧ 40 ≤ ip.length
    · rw [if_pos h6, if_pos h6, Checked.index_of_lt ip 6 0 (by omega)]
      rfl
    · rw [if_neg h6, if_neg h6]

/-! ## IP and TCP -/

/-- A slice that is there, and has its length. -/
theorem slice_eq {b : Bytes} {i j : ℕ} (hij : i ≤ j) (hj : j ≤ b.length) :
    Checked.slice b i j = some (sliceOf b i j) ∧ (sliceOf b i j).length = j - i := by
  refine ⟨Checked.slice_of_le hij hj, ?_⟩
  rw [sliceOf, List.length_drop, List.length_take, Nat.min_eq_left hj]

theorem v4mappedChecked_eq {a : Bytes} (h : a.length = 4) :
    v4mappedChecked a = some (v4mapped a) := by
  have hslice : Checked.slice a 0 4 = some (a.take 4) := Checked.slice_of_le (by omega) h.ge
  have hexact : Checked.exactly 4 (a.take 4) = some (a.take 4) :=
    Checked.exactly_of_length (List.length_take_of_le h.ge)
  simp only [v4mappedChecked, hslice, hexact, v4mapped, bind, Option.bind_some]

/-- The addresses and the TCP bytes of a header of `ihl` bytes. -/
theorem ipv4Parts_eq {ip : Bytes} {ihl stop : ℕ} (hip : 20 ≤ ip.length) (hihl : ihl ≤ stop)
    (hstop : stop ≤ ip.length) :
    ((Checked.slice ip 12 16).bind fun src ↦ (v4mappedChecked src).bind fun src ↦
      (Checked.slice ip 16 20).bind fun dst ↦ (v4mappedChecked dst).bind fun dst ↦
        (Checked.slice ip ihl stop).bind fun tcp ↦ some (some (src, dst, tcp))) =
      some (some (v4mapped (sliceOf ip 12 16), v4mapped (sliceOf ip 16 20),
        sliceOf ip ihl stop)) := by
  have hsrc := slice_eq (i := 12) (j := 16) (by decide) (by omega : 16 ≤ ip.length)
  have hdst := slice_eq (i := 16) (j := 20) (by decide) hip
  rw [hsrc.1, Option.bind_some, v4mappedChecked_eq hsrc.2, Option.bind_some, hdst.1,
    Option.bind_some, v4mappedChecked_eq hdst.2, Option.bind_some, (slice_eq hihl hstop).1,
    Option.bind_some]

theorem parseIpv4Checked_eq (ip : Bytes) : parseIpv4Checked ip = some (parseIpv4 ip) := by
  rw [parseIpv4Checked, parseIpv4]
  dsimp only
  by_cases hshort : ip.length < 20
  · rw [if_pos hshort, if_pos hshort]
  rw [if_neg hshort, if_neg hshort, Checked.index_of_lt ip 0 0 (by omega), Option.bind_eq_bind,
    Option.bind_some]
  generalize (ip.getD 0 0 &&& 0x0f).toNat * 4 = ihl
  by_cases hihl : ihl < 20 ∨ ip.length < ihl
  · rw [if_pos hihl, if_pos hihl]
  rw [if_neg hihl, if_neg hihl, be16Checked_eq (by omega), Option.bind_eq_bind, Option.bind_some]
  by_cases hfrag : isFragmentWord (be16At ip 6)
  · rw [if_pos hfrag, if_pos hfrag]
  rw [if_neg hfrag, if_neg hfrag, Checked.index_of_lt ip 9 0 (by omega), Option.bind_eq_bind,
    Option.bind_some]
  by_cases hprotocol : ip.getD 9 0 ≠ 6
  · rw [if_pos hprotocol, if_pos hprotocol]
  rw [if_neg hprotocol, if_neg hprotocol, be16Checked_eq (by omega), Option.bind_some]
  -- the end is at least the header's, whichever of the two lengths it is
  have hstop : ihl ≤ (if ihl ≤ be16At ip 2 ∧ be16At ip 2 ≤ ip.length then be16At ip 2
      else ip.length) ∧ (if ihl ≤ be16At ip 2 ∧ be16At ip 2 ≤ ip.length then be16At ip 2
      else ip.length) ≤ ip.length := by
    split_ifs with htotal
    · exact htotal
    · exact ⟨by omega, le_rfl⟩
  exact ipv4Parts_eq (by omega) hstop.1 hstop.2

/-- The variables of the loop: a header of the datagram, from which the walk on leads to the TCP
header. -/
structure ExtensionInv (ip : Bytes) (tcp : Option ℕ) (s : UInt8 × ℕ) : Prop where
  inside : s.2 ≤ ip.length
  walk_eq : tcpOffset ip s.1 s.2 = tcp

/-- The loop's result is the offset of the TCP header, and is inside the datagram. -/
structure ExtensionPost (ip : Bytes) (tcp r : Option ℕ) : Prop where
  offset_eq : r = tcp
  inside : ∀ off ∈ r, off ≤ ip.length

theorem ExtensionPost.nothing {ip : Bytes} {tcp : Option ℕ} (h : none = tcp) :
    ExtensionPost ip tcp none := ⟨h, fun _ hnone ↦ absurd hnone (Option.not_mem_none _)⟩

theorem extensionStep_progress {ip : Bytes} {tcp : Option ℕ} {s : UInt8 × ℕ}
    (h : ExtensionInv ip tcp s) :
    Loop.Progress (ExtensionInv ip tcp) (fun s ↦ ip.length - s.2) (ExtensionPost ip tcp) s
      (extensionStep ip s) := by
  obtain ⟨next, off⟩ := s
  obtain ⟨hinside, hwalk⟩ := h
  dsimp only at hinside hwalk
  rw [tcpOffset] at hwalk
  rw [extensionStep]
  by_cases htcp : next = 6
  · rw [if_pos htcp] at hwalk ⊢
    refine .done ⟨hwalk, fun off' hoff ↦ ?_⟩
    obtain rfl := Option.mem_some.mp hoff
    exact hinside
  rw [if_neg htcp] at hwalk ⊢
  by_cases hext : next = 0 ∨ next = 43 ∨ next = 60
  · rw [if_pos hext] at hwalk ⊢
    by_cases hshort : ip.length < off + 8
    · rw [if_pos hshort] at hwalk ⊢
      exact .done (.nothing hwalk)
    rw [if_neg hshort] at hwalk ⊢
    rw [Checked.index_of_lt ip off 0 (by omega), Checked.index_of_lt ip (off + 1) 0 (by omega),
      Option.bind_eq_bind, Option.bind_some, Option.bind_some]
    dsimp only at hwalk ⊢
    by_cases hend : ip.length < off + ((ip.getD (off + 1) 0).toNat + 1) * 8
    · rw [if_pos hend] at hwalk ⊢
      exact .done (.nothing hwalk)
    · rw [if_neg hend] at hwalk ⊢
      refine .next ⟨Nat.le_of_not_lt hend, hwalk⟩ ?_
      dsimp only
      omega
  · rw [if_neg hext] at hwalk ⊢
    exact .done (.nothing hwalk)

theorem parseIpv6Checked_eq (ip : Bytes) (extra : ℕ) :
    parseIpv6Checked (ip.length + extra) ip = some (parseIpv6 ip) := by
  rw [parseIpv6Checked, parseIpv6]
  by_cases hshort : ip.length < 40
  · rw [if_pos hshort, if_pos hshort]
  have hstart : ExtensionInv ip (tcpOffset ip (ip.getD 6 0) 40) (ip.getD 6 0, 40) :=
    ⟨by omega, rfl⟩
  obtain ⟨r, hrun, rfl, hinside⟩ := Loop.run_of_invariant (fun s ↦ extensionStep_progress)
    (ip.length + extra) hstart (by dsimp only; omega)
  rw [if_neg hshort, if_neg hshort, Checked.index_of_lt ip 6 0 (by omega), Option.bind_eq_bind,
    Option.bind_some, hrun, Option.bind_eq_bind, Option.bind_some]
  cases hoff : tcpOffset ip (ip.getD 6 0) 40 with
  | none => rfl
  | some off =>
    dsimp only
    rw [be16Checked_eq (by omega), Option.bind_eq_bind, Option.bind_some]
    by_cases hend : min (40 + be16At ip 4) ip.length < off
    · rw [if_pos hend, if_pos hend]
    · rw [if_neg hend, if_neg hend]
      have hsrc := slice_eq (b := ip) (i := 8) (j := 24) (by decide) (by omega)
      have hdst := slice_eq (b := ip) (i := 24) (j := 40) (by decide) (by omega)
      have htcp := slice_eq (b := ip) (Nat.le_of_not_lt hend) (min_le_right _ _)
      rw [hsrc.1, hdst.1, htcp.1]
      show (Checked.exactly 16 (sliceOf ip 8 24)).bind _ = _
      rw [Checked.exactly_of_length hsrc.2, Option.bind_some]
      show (Checked.exactly 16 (sliceOf ip 24 40)).bind _ = _
      rw [Checked.exactly_of_length hdst.2, Option.bind_some]
      rfl

theorem be32Checked_eq {b : Bytes} {i : ℕ} (h : i + 4 ≤ b.length) :
    be32Checked b i = some (be32At b i) := by
  rw [be32Checked, be16Checked_eq (by omega), be16Checked_eq (by omega)]
  rfl

theorem parseTcpChecked_eq (src dst tcp : Bytes) :
    parseTcpChecked src dst tcp = some (parseTcp src dst tcp) := by
  rw [parseTcpChecked, parseTcp]
  dsimp only
  by_cases hshort : tcp.length < 20
  · rw [if_pos hshort, if_pos hshort]
  rw [if_neg hshort, if_neg hshort, Checked.index_of_lt tcp 12 0 (by omega), Option.bind_eq_bind,
    Option.bind_some]
  generalize (tcp.getD 12 0 >>> 4).toNat * 4 = doff
  by_cases hdoff : doff < 20 ∨ tcp.length < doff
  · rw [if_pos hdoff, if_pos hdoff]
  · rw [if_neg hdoff, if_neg hdoff, Checked.index_of_lt tcp 13 0 (by omega),
      be16Checked_eq (by omega), be16Checked_eq (by omega), be32Checked_eq (by omega),
      Checked.sliceFrom_of_le (by omega)]
    rfl

theorem parseIpTcpChecked_eq (ip : Bytes) (extra : ℕ) :
    parseIpTcpChecked (ip.length + extra) ip = some (parseIpTcp ip) := by
  rw [parseIpTcpChecked, parseIpTcp]
  cases ip.head? with
  | none => rfl
  | some b =>
    have haddressed : addressedChecked (ip.length + extra) (b >>> 4) ip =
        some (if b >>> 4 = 4 then parseIpv4 ip
          else if b >>> 4 = 6 then parseIpv6 ip else none) := by
      rw [addressedChecked, parseIpv4Checked_eq, parseIpv6Checked_eq, apply_ite some,
        apply_ite some]
    dsimp only
    rw [haddressed, Option.bind_eq_bind, Option.bind_some]
    generalize (if b >>> 4 = 4 then parseIpv4 ip else if b >>> 4 = 6 then parseIpv6 ip else none) =
      addressed
    rcases addressed with _ | ⟨src, dst, tcp⟩
    · rfl
    · exact parseTcpChecked_eq src dst tcp

/-! ## Safety -/

/-- Leaving the loop is not going on. -/
theorem not_next_of_done {σ ρ : Type} {r : ρ} {s : σ} :
    (some (.done r) : Option (Iteration σ ρ)) ≠ some (.next s) := by
  intro h
  cases h

/-- An iteration over a tag moves on by the tag. -/
theorem vlanStep_advances {frame : Bytes} {s s' : ℕ × ℕ} (h : vlanStep frame s = some (.next s')) :
    s.1 < s'.1 := by
  rw [vlanStep] at h
  by_cases htag : s.2 = 0x8100 ∨ s.2 = 0x88a8
  · rw [if_pos htag] at h
    by_cases hshort : frame.length < s.1 + 4 + 2
    · rw [if_pos hshort] at h
      exact absurd h not_next_of_done
    · rw [if_neg hshort] at h
      obtain ⟨ethertype, -, hnext⟩ := Option.bind_eq_some_iff.mp h
      obtain rfl := Iteration.next.inj (Option.some.inj hnext)
      exact Nat.lt_add_of_pos_right (by decide)
  · rw [if_neg htag] at h
    exact absurd h not_next_of_done

/-- An iteration over an extension header moves on by the header, which has eight bytes at least. -/
theorem extensionStep_advances {ip : Bytes} {s s' : UInt8 × ℕ}
    (h : extensionStep ip s = some (.next s')) : s.2 < s'.2 := by
  rw [extensionStep] at h
  by_cases htcp : s.1 = 6
  · rw [if_pos htcp] at h
    exact absurd h not_next_of_done
  rw [if_neg htcp] at h
  by_cases hext : s.1 = 0 ∨ s.1 = 43 ∨ s.1 = 60
  · rw [if_pos hext] at h
    by_cases hshort : ip.length < s.2 + 8
    · rw [if_pos hshort] at h
      exact absurd h not_next_of_done
    · rw [if_neg hshort] at h
      obtain ⟨next, -, h⟩ := Option.bind_eq_some_iff.mp h
      obtain ⟨len, -, h⟩ := Option.bind_eq_some_iff.mp h
      by_cases hend : ip.length < s.2 + (len.toNat + 1) * 8
      · exact absurd ((if_pos hend).symm.trans h) not_next_of_done
      · obtain rfl := Iteration.next.inj (Option.some.inj ((if_neg hend).symm.trans h))
        exact Nat.lt_add_of_pos_right (by omega)
  · rw [if_neg hext] at h
    exact absurd h not_next_of_done

/-- Parsing a frame ends and is never out of range, whatever the frame and its link type are. -/
theorem frameParsing_safe (linktype : ℤ) (frame : Bytes) (extra : ℕ) :
    stripLinkChecked (frame.length + extra) linktype frame = some (stripLink linktype frame) ∧
    isIpFragmentChecked frame = some (isIpFragment frame) ∧
    parseIpTcpChecked (frame.length + extra) frame = some (parseIpTcp frame) ∧
    (∀ s s', vlanStep frame s = some (.next s') → s.1 < s'.1) ∧
    ∀ s s', extensionStep frame s = some (.next s') → s.2 < s'.2 :=
  ⟨stripLinkChecked_eq linktype frame extra, isIpFragmentChecked_eq frame,
    parseIpTcpChecked_eq frame extra, fun _ _ ↦ vlanStep_advances, fun _ _ ↦ extensionStep_advances⟩

end SqlReplay
