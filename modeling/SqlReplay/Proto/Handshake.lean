import SqlReplay.Proto.BinaryWire
import SqlReplay.Proto.Conversation

/-!
# The handshake

A connection begins with the server's greeting and the client's login. From the first the decoder
takes the server's version, its thread id and its capabilities, from the second the user, the
default database and whether queries have attributes; in between stand fields whose widths it has to
know and whose contents it skips, and the authentication response comes in three forms.

How the two then agree on the password is no concern of the decoder, and it does not follow it. It
need not: the client's part of that exchange has sequence ids that go on from the login, and only a
packet that starts at 0 is a command. So behind any handshake, with as many packets to and fro as
the authentication takes, the decoder is ready for a conversation, with the names that the two have
exchanged (`run_handshake`).
-/

namespace SqlReplay

/-! ## The greeting -/

structure Greeting where
  version : Bytes
  threadId : UInt32
  /-- The first part of the authentication data, and a filler. -/
  salt : Bytes
  caps : UInt32
  /-- The character set and the status. -/
  charset : Bytes
  rest : Bytes
  version_spec : 0 ∉ version
  salt_length : salt.length = 9
  charset_length : charset.length = 3

/-- The bytes of a greeting. The capabilities stand in two halves around the character set. -/
def Greeting.encode (g : Greeting) : Bytes :=
  10 :: (g.version ++ 0 :: (leBytes 4 g.threadId.toNat ++ (g.salt ++
    (leBytes 2 (g.caps.toNat % 2 ^ 16) ++ (g.charset ++
      (leBytes 2 (g.caps.toNat / 2 ^ 16) ++ g.rest))))))

namespace Reader

theorem reads_cstring {b : Bytes} (h : 0 ∉ b) : Reads cstring (b ++ [0]) b := by
  intro rest
  have hwhile : (b ++ [0] ++ rest).takeWhile (· ≠ 0) = b := by
    rw [List.append_assoc, List.takeWhile_append_of_pos]
    · exact List.append_nil b
    · intro c hc
      exact decide_eq_true fun hzero ↦ h (hzero ▸ hc)
  have hlt : b.length < (b ++ [0] ++ rest).length := by
    rw [List.length_append, List.length_append]
    exact Nat.lt_of_lt_of_le (Nat.lt_succ_self _) (Nat.le_add_right _ _)
  rw [cstring, hwhile, if_pos hlt]
  have hlength : b.length + 1 = (b ++ [0]).length := by
    rw [List.length_append]
    rfl
  rw [hlength, List.drop_left]

end Reader

/-- A greeting is read back. -/
theorem parseGreeting_encode (g : Greeting) :
    parseGreeting g.encode = some (fromUtf8Lossy g.version, g.threadId, g.caps) := by
  have hthread : g.threadId.toNat < 256 ^ 4 := g.threadId.toNat_lt
  have hcaps : g.caps.toNat < 2 ^ 32 := g.caps.toNat_lt
  have hlow : g.caps.toNat % 2 ^ 16 < 256 ^ 2 := Nat.mod_lt _ (by decide)
  have hhigh : g.caps.toNat / 2 ^ 16 < 256 ^ 2 := by
    omega
  -- the version and the thread id are read, the fields behind them are cut out
  have hreads := (Reader.reads_cstring g.version_spec).bind (β := Bytes × ℕ)
    (f := fun version ↦ do
      let threadId ← Reader.le 4
      pure (version, threadId))
    ((Reader.reads_le hthread).bind_pure (Reads.pure (g.version, g.threadId.toNat)))
  have hhead := hreads (g.salt ++ (leBytes 2 (g.caps.toNat % 2 ^ 16) ++ (g.charset ++
    (leBytes 2 (g.caps.toNat / 2 ^ 16) ++ g.rest))))
  have htail : g.encode.tail = g.version ++ [0] ++ leBytes 4 g.threadId.toNat ++ (g.salt ++
      (leBytes 2 (g.caps.toNat % 2 ^ 16) ++ (g.charset ++
        (leBytes 2 (g.caps.toNat / 2 ^ 16) ++ g.rest)))) := by
    simp only [Greeting.encode, List.tail_cons, List.append_assoc, List.cons_append,
      List.nil_append]
  have hsalt (r : Bytes) : (g.salt ++ r).drop 9 = r := by
    rw [← g.salt_length, List.drop_left]
  have htwo (x : ℕ) (r : Bytes) : (leBytes 2 x ++ r).take 2 = leBytes 2 x := by
    have hlength : (leBytes 2 x).length = 2 := length_leBytes 2 x
    exact hlength ▸ List.take_left
  have hcharset (x : ℕ) (r : Bytes) : (leBytes 2 x ++ (g.charset ++ r)).drop 5 = r := by
    have hlength : (leBytes 2 x ++ g.charset).length = 5 := by
      rw [List.length_append, length_leBytes, g.charset_length]
    rw [← List.append_assoc, ← hlength, List.drop_left]
  have hlength (x : ℕ) (r : Bytes) : ¬(leBytes 2 x ++ r).length < 2 := by
    rw [List.length_append, length_leBytes]
    omega
  have hfirst : ¬g.encode.head? ≠ some 10 := not_not.mpr rfl
  rw [parseGreeting, if_neg hfirst, htail, hhead]
  dsimp only
  rw [hsalt, hcharset, htwo, htwo, if_neg (hlength _ _), leNat_leBytes hlow, leNat_leBytes hhigh]
  rw [if_neg (not_or.mpr ⟨hlength _ _, hlength _ _⟩), Nat.mod_add_div]
  have hthreadId : g.threadId.toNat.toUInt32 = g.threadId := UInt32.ofNat_toNat
  have hcapsId : g.caps.toNat.toUInt32 = g.caps := UInt32.ofNat_toNat
  rw [hthreadId, hcapsId]

/-! ## The login -/

/-- The bytes of an authentication response, in the form that the capabilities say. -/
def encodeAuth (caps : UInt32) (auth : Bytes) : Bytes :=
  if caps &&& CLIENT_PLUGIN_AUTH_LENENC_CLIENT_DATA ≠ 0 then lenencString auth
  else if caps &&& CLIENT_SECURE_CONNECTION ≠ 0 then auth.length.toUInt8 :: auth
  else auth ++ [0]

/-- The response can be sent in this form. -/
def AuthFits (caps : UInt32) (auth : Bytes) : Prop :=
  if caps &&& CLIENT_PLUGIN_AUTH_LENENC_CLIENT_DATA ≠ 0 then auth.length < 2 ^ 64
  else if caps &&& CLIENT_SECURE_CONNECTION ≠ 0 then auth.length < 256
  else 0 ∉ auth

instance (caps : UInt32) (auth : Bytes) : Decidable (AuthFits caps auth) :=
  inferInstanceAs (Decidable (if caps &&& CLIENT_PLUGIN_AUTH_LENENC_CLIENT_DATA ≠ 0 then
    auth.length < 2 ^ 64 else if caps &&& CLIENT_SECURE_CONNECTION ≠ 0 then auth.length < 256
    else 0 ∉ auth))

/-- A login in clear text and without compression. -/
structure Login where
  caps : UInt32
  /-- The maximal packet size, the character set and a filler. -/
  fixed : Bytes
  user : Bytes
  auth : Bytes
  db : Bytes
  rest : Bytes
  protocol : caps &&& CLIENT_PROTOCOL_41 ≠ 0
  clear : caps &&& CLIENT_SSL = 0
  uncompressed : caps &&& (CLIENT_COMPRESS ||| CLIENT_ZSTD_COMPRESSION_ALGORITHM) = 0
  fixed_length : fixed.length = 28
  user_spec : 0 ∉ user
  auth_fits : AuthFits caps auth
  db_spec : 0 ∉ db

namespace Login

/-- The bytes of a login. -/
def encode (l : Login) : Bytes :=
  leBytes 4 l.caps.toNat ++ (l.fixed ++ (l.user ++ [0] ++ (encodeAuth l.caps l.auth ++
    ((if l.caps &&& CLIENT_CONNECT_WITH_DB = 0 then [] else l.db ++ [0]) ++ l.rest))))

/-- The default database that a login asks for. -/
def database (l : Login) : Option Bytes :=
  if l.caps &&& CLIENT_CONNECT_WITH_DB = 0 ∨ l.db = [] then none else some (fromUtf8Lossy l.db)

/-- The session of a login: queries have attributes when both sides asked for them. -/
def session (l : Login) (serverCaps : UInt32) : Session where
  db := l.database
  user := some (fromUtf8Lossy l.user)
  queryAttrs := l.caps &&& serverCaps &&& CLIENT_QUERY_ATTRIBUTES != 0
  statements := ⟨fun _ ↦ none, fun _ ↦ none⟩

end Login

theorem reads_authResponse {caps : UInt32} {auth : Bytes} (h : AuthFits caps auth) :
    Reads (authResponse caps) (encodeAuth caps auth) () := by
  rw [authResponse, encodeAuth]
  rw [AuthFits] at h
  split_ifs at h ⊢ with hlenenc hsecure
  · exact (Reader.reads_lenencBytes h).bind_pure (Reads.pure ())
  · have hlength : auth.length.toUInt8.toNat = auth.length := Nat.mod_eq_of_lt h
    refine (Reader.reads_u8 auth.length.toUInt8).bind ?_
    rw [hlength]
    exact (Reader.reads_take auth).bind_pure (Reads.pure ())
  · exact (Reader.reads_cstring h).bind_pure (Reads.pure ())

namespace ProtoState

/-- The names of a login are read back. -/
theorem onLoginNames_encode (s : ProtoState) (l : Login) (hdb : s.db = none) :
    s.onLoginNames l.caps (l.user ++ [0] ++ (encodeAuth l.caps l.auth ++
      ((if l.caps &&& CLIENT_CONNECT_WITH_DB = 0 then [] else l.db ++ [0]) ++ l.rest))) =
        { s with user := some (fromUtf8Lossy l.user), db := l.database } := by
  have hauth := reads_authResponse l.auth_fits
    ((if l.caps &&& CLIENT_CONNECT_WITH_DB = 0 then [] else l.db ++ [0]) ++ l.rest)
  rw [onLoginNames, Reader.reads_cstring l.user_spec]
  dsimp only
  rw [hauth]
  dsimp only
  rw [Login.database]
  by_cases hwith : l.caps &&& CLIENT_CONNECT_WITH_DB = 0
  · rw [if_pos hwith, if_pos (Or.inl hwith), ← hdb]
  · rw [if_neg hwith, if_neg hwith, Reader.reads_cstring l.db_spec]
    dsimp only
    by_cases hempty : l.db = []
    · rw [if_pos hempty, if_pos (Or.inr hempty), ← hdb]
    · rw [if_neg hempty, if_neg (not_or.mpr ⟨hwith, hempty⟩)]

/-- The state behind a greeting. -/
def greeted (s : ProtoState) (g : Greeting) : ProtoState :=
  { s with
    serverVersion := some (fromUtf8Lossy g.version)
    threadId := some g.threadId
    serverCaps := g.caps
    phase := .login }

theorem onServerPacket_greeting {s : ProtoState} (h : s.phase = .greeting) (g : Greeting)
    {pkt : LogicalPacket} (hpayload : pkt.payload = g.encode) :
    s.onServerPacket pkt = (s.greeted g, []) := by
  rw [onServerPacket, h]
  dsimp only
  rw [hpayload, parseGreeting_encode]
  rfl

/-- The state behind a login. -/
def loggedIn (s : ProtoState) (l : Login) : ProtoState :=
  { s with
    caps := l.caps
    queryAttrs := l.caps &&& s.serverCaps &&& CLIENT_QUERY_ATTRIBUTES != 0
    user := some (fromUtf8Lossy l.user)
    db := l.database
    phase := .established }

theorem onClientPacket_login {s : ProtoState} (h : s.phase = .login) (hdb : s.db = none) (l : Login)
    {pkt : LogicalPacket} (hpayload : pkt.payload = l.encode) :
    s.onClientPacket pkt = s.loggedIn l := by
  have hlength : (leBytes 4 l.caps.toNat).length = 4 := length_leBytes 4 _
  have htake : l.encode.take 4 = leBytes 4 l.caps.toNat := hlength ▸ List.take_left
  have hlong : ¬l.encode.length < 4 := by
    rw [Login.encode, List.length_append, hlength]
    exact Nat.not_lt.mpr (Nat.le_add_right _ _)
  have hdrop : l.encode.drop (4 + 4 + 1 + 23) = l.user ++ [0] ++ (encodeAuth l.caps l.auth ++
      ((if l.caps &&& CLIENT_CONNECT_WITH_DB = 0 then [] else l.db ++ [0]) ++ l.rest)) := by
    have hfront : (leBytes 4 l.caps.toNat ++ l.fixed).length = 4 + 4 + 1 + 23 := by
      rw [List.length_append, hlength, l.fixed_length]
    rw [Login.encode, ← List.append_assoc]
    exact hfront ▸ List.drop_left
  have hcaps : (leNat (leBytes 4 l.caps.toNat)).toUInt32 = l.caps := by
    rw [leNat_leBytes l.caps.toNat_lt]
    exact UInt32.ofNat_toNat
  have hnames := onLoginNames_encode { s with
    caps := l.caps
    queryAttrs := l.caps &&& s.serverCaps &&& CLIENT_QUERY_ATTRIBUTES != 0 } l hdb
  rw [onClientPacket, h]
  dsimp only
  rw [hpayload, onLogin, if_neg hlong]
  dsimp only
  rw [htake, hcaps, if_neg l.protocol, if_neg (not_not.mpr l.clear),
    if_neg (not_not.mpr l.uncompressed), hdrop, hnames]
  rfl

/-! ## Authentication -/

/-- A packet outside any command: nothing is in flight, and a client's packet does not start at
sequence id 0. It says nothing. -/
theorem onPackets_stray {s : ProtoState} (h : s.Quiet) (clock : ℕ → ℤ) (offset : ℕ) {dir : Dir}
    {pkts : List (UInt8 × Bytes)} (hseq : dir = .client → ∀ p ∈ pkts, p.1 ≠ 0) :
    ∃ cont, s.onPackets dir (packetsAt clock offset pkts) =
      ({ s with serverContSeq := cont }, []) := by
  induction pkts generalizing s offset with
  | nil => exact ⟨s.serverContSeq, rfl⟩
  | cons p pkts ih =>
    have hone : ∃ cont, s.onPacket dir ⟨p.1, lastSeqOf p.1 p.2, clock offset, p.2⟩ =
        ({ s with serverContSeq := cont }, []) := by
      cases dir with
      | client =>
        have hpacket : s.onClientPacket ⟨p.1, lastSeqOf p.1 p.2, clock offset, p.2⟩ = s := by
          unfold onClientPacket
          rw [h.phase_eq]
          exact if_pos (hseq rfl p List.mem_cons_self)
        exact ⟨s.serverContSeq, congrArg (·, []) hpacket⟩
      | server =>
        rw [onPacket, onServerPacket_established _ h.toEstablished, onResponse, h.pending_eq]
        dsimp only
        split_ifs
        · exact ⟨_, rfl⟩
        · exact ⟨none, rfl⟩
    obtain ⟨cont, hcont⟩ := hone
    have hquiet : Quiet { s with serverContSeq := cont } :=
      ⟨⟨h.phase_eq, h.decoding⟩, h.pending_eq⟩
    obtain ⟨cont', hrest⟩ := ih hquiet (offset + (encodePacket p.1 p.2).length)
      fun hdir q hq ↦ hseq hdir q (List.mem_cons_of_mem p hq)
    refine ⟨cont', ?_⟩
    rw [packetsAt, onPackets, hcont, if_pos hquiet.decoding, hrest]
    rfl

end ProtoState

/-- Packets that one side sends, and the chunks that deliver them. -/
structure Flight where
  dir : Dir
  packets : List (UInt8 × Bytes)
  chunks : List (ℤ × Bytes)

/-- A part of the exchange that authenticates the client: its packets go on from others. -/
structure Flight.Authenticates (t : Flight) : Prop where
  seq : t.dir = .client → ∀ p ∈ t.packets, p.1 ≠ 0
  within : WithinLimit t.packets
  chunks_eq : chunkBytes t.chunks = encodePackets t.packets

/-- A greeting, a login and what follows it until the client may send a command. -/
structure Handshake where
  greeting : Greeting
  login : Login
  authentication : List Flight
  greetingChunks : List (ℤ × Bytes)
  loginChunks : List (ℤ × Bytes)

namespace Handshake

structure WellFormed (h : Handshake) : Prop where
  greeting_within : WithinLimit [(0, h.greeting.encode)]
  greeting_eq : chunkBytes h.greetingChunks = encodePackets [(0, h.greeting.encode)]
  login_within : WithinLimit [(1, h.login.encode)]
  login_eq : chunkBytes h.loginChunks = encodePackets [(1, h.login.encode)]
  authenticates : ∀ t ∈ h.authentication, t.Authenticates

/-- The calls that deliver the handshake. -/
def calls (h : Handshake) : List Chunk :=
  ConnDecoder.chunksOf .server h.greetingChunks ++ (ConnDecoder.chunksOf .client h.loginChunks ++
    h.authentication.flatMap fun t ↦ ConnDecoder.chunksOf t.dir t.chunks)

/-- The session that a handshake begins. -/
def session (h : Handshake) : Session := h.login.session h.greeting.caps

end Handshake

namespace ConnDecoder

/-- A decoder that has the names of a handshake and is ready for a conversation. -/
structure Knows (d : ConnDecoder) (h : Handshake) : Prop where
  ready : d.Ready
  session_eq : d.session = h.session
  version : d.serverVersion = some (fromUtf8Lossy h.greeting.version)
  threadId : d.threadId = some h.greeting.threadId

/-- A part of the authentication is passed over. -/
theorem run_authentication {d : ConnDecoder} {h : Handshake} (hd : d.Knows h) {ts : List Flight}
    (hts : ∀ t ∈ ts, t.Authenticates) :
    let r := d.run (ts.flatMap fun t ↦ chunksOf t.dir t.chunks)
    r.1.Knows h ∧ r.2 = [] := by
  induction ts generalizing d with
  | nil => exact ⟨hd, rfl⟩
  | cons t ts ih =>
    obtain ⟨ht, hts⟩ := List.forall_mem_cons.mp hts
    obtain ⟨cont, hpackets⟩ := ProtoState.onPackets_stray hd.ready.quiet (tsAt t.chunks) 0 ht.seq
    have hquiet : ProtoState.Quiet { d.toProtoState with serverContSeq := cont } :=
      ⟨⟨hd.ready.quiet.phase_eq, hd.ready.quiet.decoding⟩, hd.ready.quiet.pending_eq⟩
    obtain ⟨hstate, hout, hidle⟩ := run_packets hd.ready.quiet.decoding hd.ready.idle ht.within
      ht.chunks_eq (by rw [hpackets]; exact hquiet.decoding)
    rw [hpackets] at hstate hout
    have hknows : (d.run (chunksOf t.dir t.chunks)).1.Knows h := by
      refine ⟨⟨?_, hidle⟩, ?_, ?_, ?_⟩
      · rw [hstate]
        exact hquiet
      · rw [hstate, ← hd.session_eq]
        rfl
      · rw [hstate]
        exact hd.version
      · rw [hstate]
        exact hd.threadId
    obtain ⟨hend, hnone⟩ := ih hknows hts
    rw [List.flatMap_cons, run_append]
    refine ⟨hend, ?_⟩
    rw [hout, hnone]
    rfl

/-- **Behind a handshake the decoder is ready**, in any chunks, with the names that the two sides
have told each other, and no event has come of it. -/
theorem run_handshake {h : Handshake} (hwf : h.WellFormed) :
    (new.run h.calls).1.Knows h ∧ (new.run h.calls).2 = [] := by
  -- the greeting
  have hidle (dir : Dir) : (new.assembler dir).Idle := by
    cases dir
    · exact PacketAssembler.new_idle
    · exact PacketAssembler.new_idle
  have hgreeting : new.onPackets .server
      (packetsAt (tsAt h.greetingChunks) 0 [(0, h.greeting.encode)]) =
        (ProtoState.new.greeted h.greeting, []) := by
    rw [packetsAt, ProtoState.onPackets, ProtoState.onPacket,
      ProtoState.onServerPacket_greeting rfl h.greeting rfl]
    rfl
  obtain ⟨hstate, hout, hidle⟩ := run_packets rfl hidle hwf.greeting_within hwf.greeting_eq
    (by rw [hgreeting]; rfl)
  rw [hgreeting] at hstate hout
  -- the login
  generalize hr : new.run (chunksOf .server h.greetingChunks) = r at hstate hout hidle
  have hlogin : r.1.onPackets .client (packetsAt (tsAt h.loginChunks) 0 [(1, h.login.encode)]) =
      ((ProtoState.new.greeted h.greeting).loggedIn h.login, []) := by
    rw [hstate, packetsAt, ProtoState.onPackets, ProtoState.onPacket,
      ProtoState.onClientPacket_login rfl rfl h.login rfl]
    rfl
  obtain ⟨hstate', hout', hidle'⟩ := run_packets (by rw [hstate]; rfl) hidle hwf.login_within
    hwf.login_eq (by rw [hlogin]; rfl)
  rw [hlogin] at hstate' hout'
  have hknows : (r.1.run (chunksOf .client h.loginChunks)).1.Knows h := by
    refine ⟨⟨?_, hidle'⟩, ?_, ?_, ?_⟩
    all_goals rw [hstate']
    · exact ⟨⟨rfl, rfl⟩, rfl⟩
    · rfl
    · rfl
    · rfl
  obtain ⟨hend, hnone⟩ := run_authentication hknows hwf.authenticates
  have hrun : new.run h.calls = (((r.1.run (chunksOf .client h.loginChunks)).1.run
      (h.authentication.flatMap fun t ↦ chunksOf t.dir t.chunks)).1,
        r.2 ++ ((r.1.run (chunksOf .client h.loginChunks)).2 ++
          ((r.1.run (chunksOf .client h.loginChunks)).1.run
            (h.authentication.flatMap fun t ↦ chunksOf t.dir t.chunks)).2)) := by
    rw [Handshake.calls, run_append, run_append, hr]
  rw [hrun]
  refine ⟨hend, ?_⟩
  rw [hout, hout', hnone]
  rfl

end ConnDecoder

/-! ## Whole connections -/

/-- What the two sides of a connection say: a handshake, a conversation, and at the end, if the
client takes its leave, a COM_QUIT. -/
structure Dialogue where
  handshake : Handshake
  conversation : Conversation
  quit : Option ℤ

namespace Dialogue

structure WellFormed (g : Dialogue) : Prop where
  handshake : g.handshake.WellFormed
  conversation : g.conversation.WellFormed
  within : g.conversation.WithinLimits

/-- The calls that deliver the dialogue. -/
def calls (g : Dialogue) : List Chunk :=
  g.handshake.calls ++ (g.conversation.calls ++
    g.quit.toList.map fun ts ↦ ⟨.client, ts, encodePacket 0 [COM_QUIT]⟩)

/-- The statements of the dialogue, as an observer who knows which response is whose sees them. -/
def events (g : Dialogue) : List ProtoEvent :=
  (g.handshake.session.converse g.conversation).2

/-- What is to be reported of a dialogue, exchange by exchange: each statement once, at the time it
was sent, with the latency to its own response, the user and the default database. -/
def Reports (g : Dialogue) (events : List ProtoEvent) : Prop :=
  ∃ s, g.handshake.session.Converses g.conversation.exchanges events s

theorem reports_events (g : Dialogue) : g.Reports g.events :=
  ⟨_, Session.converses g.handshake.session g.conversation.exchanges⟩

end Dialogue

namespace ConnDecoder

/-- A decoder that is told that the client leaves, with nothing in flight. -/
theorem run_quit {d : ConnDecoder} (hd : d.Ready) (quit : Option ℤ) :
    let r := d.run (quit.toList.map fun ts ↦ ⟨.client, ts, encodePacket 0 [COM_QUIT]⟩)
    r.2 = [] ∧ r.1.disposition = .active ∧ r.1.pending = [] := by
  have hactive : d.disposition = .active := by
    have hdecoding : (!d.finished && d.disposition == .active) = true := hd.quiet.decoding
    exact beq_iff_eq.mp (Bool.and_eq_true_iff.mp hdecoding).2
  cases quit with
  | none => exact ⟨rfl, hactive, hd.quiet.pending_eq⟩
  | some ts =>
    have hchunks : chunkBytes [(ts, encodePacket 0 [COM_QUIT])] = encodePackets [(0, [COM_QUIT])] :=
      rfl
    obtain ⟨hidle, hpackets⟩ := PacketAssembler.feedAll_encodePackets (hd.idle .client)
      (by decide) hchunks
    have hts : tsAt [(ts, encodePacket 0 [COM_QUIT])] 0 = ts :=
      if_pos (List.length_pos_iff.mpr (encodePacket_ne_nil _ _))
    rw [packetsAt, hts] at hpackets
    have hfeed : (d.assembler .client).feed ts (encodePacket 0 [COM_QUIT]) =
        (((d.assembler .client).feed ts (encodePacket 0 [COM_QUIT])).1,
          [⟨0, lastSeqOf 0 [COM_QUIT], ts, [COM_QUIT]⟩]) :=
      Prod.ext rfl ((List.append_nil _).symm.trans hpackets)
    have hquit : d.onPackets .client [⟨0, lastSeqOf 0 [COM_QUIT], ts, [COM_QUIT]⟩] =
        ({ d.dropContinuation with finished := true }, []) := by
      rw [ProtoState.onPackets, ProtoState.onPacket,
        ProtoState.onClientPacket_established hd.quiet.toEstablished rfl]
      rfl
    have hone := onData_eq (c := ⟨.client, ts, encodePacket 0 [COM_QUIT]⟩) hfeed hidle.not_broken
      (fun dir ↦ (hd.idle dir).not_broken) hd.quiet.decoding
    rw [Option.toList_some, List.map_singleton, run, run, hone, hquit, ProtoState.dropContinuation,
      if_pos hd.quiet.pending_eq]
    exact ⟨rfl, hactive, hd.quiet.pending_eq⟩

/-- **Of a whole connection the decoder reports its statements**, from the first byte of the
greeting on and in any chunks: each once, in order, with the user that logged in and the database
that is the default there. Nothing is left to be flushed. -/
theorem run_dialogue {g : Dialogue} (hg : g.WellFormed) :
    let r := new.run g.calls
    r.2 = g.events ∧ r.1.finish.2 = [] ∧ r.1.disposition = .active := by
  obtain ⟨hknows, hsilent⟩ := run_handshake hg.handshake
  obtain ⟨hready, -, hout⟩ := run_converse hknows.ready hg.conversation hg.within
  obtain ⟨hnone, hactive, hpending⟩ := run_quit hready g.quit
  have hflushed (d : ConnDecoder) (hd : d.pending = []) : d.finish.2 = [] := by
    rw [finish, ProtoState.finish, hd]
    split_ifs <;> rfl
  rw [Dialogue.calls, run_append, run_append]
  refine ⟨?_, hflushed _ hpending, hactive⟩
  rw [hsilent, hout, hnone, hknows.session_eq, List.append_nil]
  rfl

/-! ## A connection with one query -/

/-- The greeting of `handshake`. -/
def sampleGreeting : Greeting where
  version := ascii "8.0"
  threadId := 1
  salt := List.replicate 9 0
  caps := 0xFFFFFFFF
  charset := [33, 2, 0]
  rest := List.replicate 11 0
  version_spec := by decide
  salt_length := rfl
  charset_length := rfl

/-- The login of `handshake`. -/
def sampleLogin : Login where
  caps := 0x8200
  fixed := List.replicate 4 0 ++ 33 :: List.replicate 23 0
  user := ascii "app"
  auth := []
  db := []
  rest := []
  protocol := by decide
  clear := by decide
  uncompressed := by decide
  fixed_length := rfl
  user_spec := by decide
  auth_fits := by decide
  db_spec := List.not_mem_nil

/-- A client that asks one query, from some time on. -/
def sampleDialogue (start : ℤ) (text : Bytes) : Dialogue where
  handshake :=
    { greeting := sampleGreeting
      login := sampleLogin
      authentication := [⟨.server, [(2, [0, 0, 0, 2, 0, 0, 0])],
        [(start + 2, encodePacket 2 [0, 0, 0, 2, 0, 0, 0])]⟩]
      greetingChunks := [(start, encodePacket 0 sampleGreeting.encode)]
      loginChunks := [(start + 1, encodePacket 1 sampleLogin.encode)] }
  conversation := queryConversationAt (start + 4) (start + 8) text
  quit := some (start + 10)

theorem sampleDialogue_wellFormed (start : ℤ) (text : Bytes) (h : text.length < 100) :
    (sampleDialogue start text).WellFormed where
  handshake :=
    { greeting_within := (by decide : WithinLimit [(0, sampleGreeting.encode)])
      greeting_eq := rfl
      login_within := (by decide : WithinLimit [(1, sampleLogin.encode)])
      login_eq := rfl
      authenticates := fun t ht ↦ by
        rw [List.mem_singleton.mp ht]
        exact ⟨fun hdir ↦ absurd hdir Dir.noConfusion,
          (by decide : WithinLimit [(2, [0, 0, 0, 2, 0, 0, 0])]), rfl⟩ }
  conversation := queryConversation_wellFormed _ _ _
  within := by
    refine ⟨fun e he ↦ ?_, fun p hp ↦ absurd hp List.not_mem_nil⟩
    rw [List.mem_singleton.mp he]
    constructor
    · intro p hp
      rw [List.mem_singleton.mp hp]
      exact (Nat.succ_le_of_lt h).trans (by decide)
    · intro p hp
      rw [List.mem_singleton.mp hp]
      exact (by decide : 7 ≤ maxLogicalPacket)

end ConnDecoder

end SqlReplay
