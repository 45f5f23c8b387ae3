import Mathlib.Logic.Basic
import SqlReplay.Capture.Event
import SqlReplay.Slowlog.Text

/-!
# The capture file format

A capture is compressed JSON, one record a line: a header, the events, and a summary that counts
them and holds the texts of their fingerprints. Compression is lossless, so a file is here the text
that was compressed. How a record looks as JSON is left to `SerdeJson`; which lines are read, in
which order, and what must hold of the records together is `streamCapture`.

The callback of `streamCapture` may fail and keeps a state of its own. A stream that comes to its
end has handed exactly the events of the file to its callback, in order (`streamCapture_eq_ok`), so
everything that is said about a reader is said about a fold over these events. An error is the text
it is displayed as.
-/

namespace SqlReplay

/-! ## Records -/

def FORMAT_VERSION : UInt32 := 1

structure Header where
  version : UInt32
  toolVersion : Bytes
  createdAt : Bytes
  deriving DecidableEq, Repr

/-- The counters of a wire decode. -/
structure PcapSummary where
  packets : ℕ := 0
  truncatedPackets : ℕ := 0
  ipFragmentsSkipped : ℕ := 0
  connections : ℕ := 0
  connectionsDecoded : ℕ := 0
  connectionsTlsSkipped : ℕ := 0
  connectionsCompressedSkipped : ℕ := 0
  connectionsMidstreamSkipped : ℕ := 0
  connectionsBroken : ℕ := 0
  statementsExpanded : ℕ := 0
  statementsInexpandable : ℕ := 0
  responsesMissing : ℕ := 0
  serverVersions : List Bytes := []
  deriving DecidableEq, Repr

structure FingerprintEntry where
  id : UInt32
  text : Bytes
  deriving DecidableEq, Repr

structure Summary where
  sourceDialect : Bytes
  eventCount : ℕ
  sessionCount : ℕ
  adminCommandsIgnored : ℕ
  serverRestartsSeen : ℕ
  pcap : Option PcapSummary
  fingerprints : List FingerprintEntry
  deriving DecidableEq, Repr

/-- The normalized text of a fingerprint id. -/
def Summary.fingerprintText (s : Summary) (id : UInt32) : Option Bytes :=
  (s.fingerprints.find? (·.id == id)).map (·.text)

inductive Record where
  | header (h : Header)
  | event (e : Event)
  | summary (s : Summary)
  deriving DecidableEq, Repr

/-- What `serde_json` makes of records and of events. -/
structure SerdeJson where
  /-- `to_writer` of a record. -/
  toWriter : Record → Bytes
  /-- `from_str` to a record. -/
  fromStr : Bytes → Option Record
  /-- `to_vec` of an event. -/
  toVec : Event → Bytes
  /-- `from_slice` to an event. -/
  fromSlice : Bytes → Option Event

/-! ## Reading -/

/-- The lines `read_until` a newline gives, with their newlines. -/
def readUntil : Bytes → List Bytes
  | [] => []
  | c :: s =>
    if c = newline then [c] :: readUntil s
    else
      match readUntil s with
      | [] => [[c]]
      | line :: lines => (c :: line) :: lines

/-- The line ending `BufRead::lines` takes off. -/
def stripLineEnding (line : Bytes) : Bytes :=
  if line.getLast? = some newline then
    if line.dropLast.getLast? = some 13 then line.dropLast.dropLast else line.dropLast
  else line

/-- The local variables of `streamCapture`. -/
structure StreamState where
  header : Option Header := none
  summary : Option Summary := none
  eventCount : ℕ := 0

section Stream

variable {σ : Type} (serde : SerdeJson)

/-- The record on a line, unless the line is blank. -/
def lineRecord (line : Bytes) (idx : ℕ) : Except Bytes (Option Record) :=
  if isUtf8 line = false then .error (ascii "capture line " ++ decimal (idx + 1))
  else if trim (stripLineEnding line) = [] then .ok none
  else
    match serde.fromStr (stripLineEnding line) with
    | none => .error (ascii "malformed capture record on line " ++ decimal (idx + 1))
    | some rec => .ok (some rec)

/-- What `streamCapture` does with a record; the callback has the state `acc`. -/
def onRecord (onEvent : σ → Event → Except Bytes σ) (st : StreamState) (acc : σ) :
    Record → Except Bytes (StreamState × σ)
  | .header h =>
    if h.version ≠ FORMAT_VERSION then
      .error (ascii "unsupported capture format version " ++ decimal h.version.toNat ++
        ascii " (this build reads " ++ decimal FORMAT_VERSION.toNat ++ ascii ")")
    else .ok ({ st with header := some h }, acc)
  | .event e =>
    (onEvent acc e).map fun acc ↦ ({ st with eventCount := st.eventCount + 1 }, acc)
  | .summary s => .ok ({ st with summary := some s }, acc)

def streamLine (onEvent : σ → Event → Except Bytes σ) (st : StreamState × σ) (line : Bytes × ℕ) :
    Except Bytes (StreamState × σ) :=
  lineRecord serde line.1 line.2 >>= fun r ↦
    match r with
    | none => .ok st
    | some r => onRecord onEvent st.1 st.2 r

/-- What must hold at the end of the file. -/
def StreamState.close (st : StreamState) : Except Bytes (Header × Summary) :=
  match st.header, st.summary with
  | none, _ => .error (ascii "capture file has no header record")
  | some _, none => .error (ascii "capture file has no summary record (truncated capture?)")
  | some header, some summary =>
    if summary.eventCount ≠ st.eventCount then
      .error (ascii "capture summary declares " ++ decimal summary.eventCount ++
        ascii " events but file contains " ++ decimal st.eventCount)
    else .ok (header, summary)

/-- `stream_capture`, with the last state of its callback. -/
def streamCapture (onEvent : σ → Event → Except Bytes σ) (acc : σ) (file : Bytes) :
    Except Bytes ((Header × Summary) × σ) :=
  (readUntil file).zipIdx.foldlM (streamLine serde onEvent) ({}, acc) >>= fun st ↦
    st.1.close.map (·, st.2)

structure CaptureFile where
  header : Header
  events : List Event
  summary : Summary
  deriving DecidableEq, Repr

/-- The callback that collects. -/
abbrev collect (es : List Event) (e : Event) : Except Bytes (List Event) := .ok (es ++ [e])

/-- `read_capture`. -/
def readCapture (file : Bytes) : Except Bytes CaptureFile :=
  (streamCapture serde collect [] file).map fun r ↦ ⟨r.1.1, r.2, r.1.2⟩

end Stream

/-! ## The events of a file -/

section Except

variable {ε α β : Type}

theorem bind_eq_ok {x : Except ε α} {f : α → Except ε β} {b : β} :
    x >>= f = .ok b ↔ ∃ a, x = .ok a ∧ f a = .ok b := by
  match x with
  | .error e => exact ⟨nofun, fun ⟨_, h, _⟩ ↦ nomatch h⟩
  | .ok a => exact ⟨fun h ↦ ⟨a, rfl, h⟩, fun ⟨_, heq, h⟩ ↦ Except.ok.inj heq ▸ h⟩

theorem map_eq_ok {x : Except ε α} {f : α → β} {b : β} :
    x.map f = .ok b ↔ ∃ a, x = .ok a ∧ f a = b := by
  match x with
  | .error e => exact ⟨nofun, fun ⟨_, h, _⟩ ↦ nomatch h⟩
  | .ok a =>
    exact ⟨fun h ↦ ⟨a, rfl, Except.ok.inj h⟩, fun ⟨_, heq, h⟩ ↦
      congrArg Except.ok (Except.ok.inj heq ▸ h)⟩

end Except

section Events

variable {serde : SerdeJson}

/-- The records on the lines of a file, unless one is malformed. -/
def records (serde : SerdeJson) : List (Bytes × ℕ) → Except Bytes (List Record)
  | [] => .ok []
  | line :: lines =>
    lineRecord serde line.1 line.2 >>= fun r ↦ (records serde lines).map (r.toList ++ ·)

def Record.events : Record → List Event
  | .event e => [e]
  | _ => []

/-- What a record does to the variables of the stream. -/
def StreamState.next (st : StreamState) (r : Record) : Except Bytes StreamState :=
  (onRecord (fun _ _ ↦ .ok ()) st () r).map Prod.fst

variable {σ : Type} {onEvent : σ → Event → Except Bytes σ}

theorem pure_eq_ok {ε α : Type} (a : α) : (pure a : Except ε α) = .ok a := rfl

/-- The callback has no influence on the variables of the stream. -/
theorem onRecord_eq_ok {st st' : StreamState} {acc acc' : σ} {r : Record} :
    onRecord onEvent st acc r = .ok (st', acc') ↔
      st.next r = .ok st' ∧ r.events.foldlM onEvent acc = .ok acc' := by
  match r with
  | .header h =>
    rw [StreamState.next, onRecord, onRecord]
    split_ifs with hversion
    · exact ⟨nofun, fun h ↦ nomatch h.1⟩
    · simp [Except.map, Record.events, pure_eq_ok]
  | .summary s => simp [StreamState.next, onRecord, Except.map, Record.events, pure_eq_ok]
  | .event e =>
    rw [onRecord, map_eq_ok]
    simp only [StreamState.next, onRecord, Record.events, List.foldlM_cons, List.foldlM_nil,
      bind_eq_ok, pure_eq_ok, Except.map, Except.ok.injEq, Prod.mk.injEq]
    constructor
    · rintro ⟨a, ha, rfl, rfl⟩
      exact ⟨rfl, a, ha, rfl⟩
    · rintro ⟨rfl, a, ha, rfl⟩
      exact ⟨a, ha, rfl, rfl⟩

theorem streamLine_eq_ok {line : Bytes × ℕ} {st st' : StreamState} {acc acc' : σ} :
    streamLine serde onEvent (st, acc) line = .ok (st', acc') ↔
      ∃ r, lineRecord serde line.1 line.2 = .ok r ∧
        r.toList.foldlM StreamState.next st = .ok st' ∧
        (r.toList.flatMap Record.events).foldlM onEvent acc = .ok acc' := by
  rw [streamLine, bind_eq_ok]
  refine exists_congr fun r ↦ and_congr_right fun _ ↦ ?_
  match r with
  | none => simp [pure_eq_ok]
  | some r => simp [onRecord_eq_ok]

/-- A stream that goes through has handed the events of its records to the callback. -/
theorem streamLines_eq_ok {lines : List (Bytes × ℕ)} {st st' : StreamState} {acc acc' : σ} :
    lines.foldlM (streamLine serde onEvent) (st, acc) = .ok (st', acc') ↔
      ∃ rs, records serde lines = .ok rs ∧ rs.foldlM StreamState.next st = .ok st' ∧
        (rs.flatMap Record.events).foldlM onEvent acc = .ok acc' := by
  induction lines generalizing st acc with
  | nil => simp [records, pure_eq_ok]
  | cons line lines ih =>
    simp only [List.foldlM_cons, bind_eq_ok, Prod.exists, records, map_eq_ok]
    constructor
    · rintro ⟨st₁, acc₁, hline, hlines⟩
      obtain ⟨r, hr, hst, hacc⟩ := streamLine_eq_ok.mp hline
      obtain ⟨rs, hrs, hst', hacc'⟩ := ih.mp hlines
      refine ⟨_, ⟨r, hr, rs, hrs, rfl⟩, ?_, ?_⟩
      · rw [List.foldlM_append, hst]
        exact hst'
      · rw [List.flatMap_append, List.foldlM_append, hacc]
        exact hacc'
    · rintro ⟨_, ⟨r, hr, rs, hrs, rfl⟩, hst, hacc⟩
      rw [List.foldlM_append, bind_eq_ok] at hst
      rw [List.flatMap_append, List.foldlM_append, bind_eq_ok] at hacc
      obtain ⟨st₁, hst, hst'⟩ := hst
      obtain ⟨acc₁, hacc, hacc'⟩ := hacc
      exact ⟨st₁, acc₁, streamLine_eq_ok.mpr ⟨r, hr, hst, hacc⟩, ih.mpr ⟨rs, hrs, hst', hacc'⟩⟩

theorem foldlM_collect (es before : List Event) :
    es.foldlM collect before = .ok (before ++ es) := by
  induction es generalizing before with
  | nil => rw [List.append_nil]; rfl
  | cons e es ih =>
    exact (ih (before ++ [e])).trans (by rw [List.append_assoc, List.singleton_append])

/-- A file can be read when its records can, and the stream comes to a good end with them. -/
theorem readCapture_eq_ok {file : Bytes} {c : CaptureFile} :
    readCapture serde file = .ok c ↔
      ∃ rs st, records serde (readUntil file).zipIdx = .ok rs ∧
        rs.foldlM StreamState.next {} = .ok st ∧ st.close = .ok (c.header, c.summary) ∧
        c.events = rs.flatMap Record.events := by
  simp only [readCapture, map_eq_ok, streamCapture, bind_eq_ok, Prod.exists, streamLines_eq_ok,
    foldlM_collect, List.nil_append, Except.ok.injEq, Prod.mk.injEq]
  constructor
  · rintro ⟨h, s, es, ⟨st, _, ⟨rs, hrs, hst, rfl⟩, _, _, hclose, ⟨rfl, rfl⟩, rfl⟩, rfl⟩
    exact ⟨rs, st, hrs, hst, hclose, rfl⟩
  · rintro ⟨rs, st, hrs, hst, hclose, hevents⟩
    refine ⟨_, _, _, ⟨st, _, ⟨rs, hrs, hst, rfl⟩, _, _, hclose, ⟨rfl, rfl⟩, rfl⟩, ?_⟩
    rw [← hevents]

/-- The stream of a file goes through exactly when the file can be read and its events go through
the callback, one after the other. -/
theorem streamCapture_eq_ok {file : Bytes} {acc acc' : σ} {header : Header} {summary : Summary} :
    streamCapture serde onEvent acc file = .ok ((header, summary), acc') ↔
      ∃ events, readCapture serde file = .ok ⟨header, events, summary⟩ ∧
        events.foldlM onEvent acc = .ok acc' := by
  simp only [readCapture_eq_ok, streamCapture, bind_eq_ok, map_eq_ok, Prod.exists,
    streamLines_eq_ok, Prod.mk.injEq]
  constructor
  · rintro ⟨st, _, ⟨rs, hrs, hst, hacc⟩, _, _, hclose, ⟨rfl, rfl⟩, rfl⟩
    exact ⟨_, ⟨rs, st, hrs, hst, hclose, rfl⟩, hacc⟩
  · rintro ⟨_, ⟨rs, st, hrs, hst, hclose, rfl⟩, hacc⟩
    exact ⟨st, acc', ⟨rs, hrs, hst, hacc⟩, _, _, hclose, ⟨rfl, rfl⟩, rfl⟩

/-- Every record was read from a line. -/
theorem exists_line {lines : List (Bytes × ℕ)} {rs : List Record}
    (h : records serde lines = .ok rs) {r : Record} (hr : r ∈ rs) :
    ∃ line, serde.fromStr line = some r := by
  induction lines generalizing rs with
  | nil =>
    obtain rfl := Except.ok.inj h
    exact absurd hr List.not_mem_nil
  | cons line lines ih =>
    rw [records, bind_eq_ok] at h
    obtain ⟨r', hr', h⟩ := h
    obtain ⟨rs', hrs', rfl⟩ := map_eq_ok.mp h
    rcases List.mem_append.mp hr with hmem | hmem
    · rw [Option.mem_toList] at hmem
      rw [lineRecord] at hr'
      split_ifs at hr' with hutf hblank
      · rw [← Except.ok.inj hr'] at hmem
        exact absurd hmem (Option.not_mem_none r)
      · refine ⟨stripLineEnding line.1, ?_⟩
        split at hr'
        · cases hr'
        · next r'' heq =>
          rw [← Except.ok.inj hr'] at hmem
          rw [heq]
          exact hmem
    · exact ih hrs' hmem

/-- Every event of a file was read from a line. -/
theorem exists_event_line {file : Bytes} {c : CaptureFile} (h : readCapture serde file = .ok c)
    {e : Event} (he : e ∈ c.events) : ∃ line, serde.fromStr line = some (.event e) := by
  obtain ⟨rs, _, hrs, -, -, hevents⟩ := readCapture_eq_ok.mp h
  rw [hevents] at he
  obtain ⟨r, hr, he⟩ := List.mem_flatMap.mp he
  match r with
  | .event e' =>
    rw [List.mem_singleton.mp he]
    exact exists_line hrs hr
  | .header _ | .summary _ => exact absurd he List.not_mem_nil

end Events

end SqlReplay
