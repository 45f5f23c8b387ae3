import SqlReplay.Capture.ReadBack
import SqlReplay.Proto.CharBoundary

/-!
# The lines of a capture as JSON

What `serde_json` writes for the records of a capture: an object in one line, its tag first and its
fields in the order of their declaration, a database or a user that is missing left out. Strings
are escaped so that no control character is left in them, and a finite latency is written with the
fewest digits that read back as it.

Whatever the record, the line is valid text between braces without a newline in it
(`jsonRecord_isJsonText`). Its tag, and an event's timestamp behind it, can be told from the line
(`tag_eq_of_jsonRecord_eq`). So among some records of which no two agree in these, the line of a
record finds it (`jsonSerde`).
-/

namespace SqlReplay

/-! ## Values -/

/-- Text that can stand in a line of JSON. -/
structure IsJsonText (t : Bytes) : Prop where
  newline_notMem : newline ∉ t
  utf8 : isUtf8 t = true

/-- A character other than a control character. -/
def isPrintable (c : UInt8) : Bool := 0x20 ≤ c && c < 0x80

/-- Text of printable characters. -/
def arePrintable (t : Bytes) : Bool := t.all isPrintable

theorem isJsonText_of_printable {t : Bytes} (h : arePrintable t = true) : IsJsonText t := by
  have hbyte := forall_byte (p := fun c ↦ isPrintable c = true → c < 0x80 ∧ c ≠ newline)
    (by decide)
  have h := List.all_eq_true.mp h
  exact ⟨fun hmem ↦ (hbyte _ (h _ hmem)).2 rfl, isUtf8_of_ascii fun c hc ↦ (hbyte c (h c hc)).1⟩

theorem arePrintable_append {s t : Bytes} (hs : arePrintable s = true)
    (ht : arePrintable t = true) : arePrintable (s ++ t) = true := by
  rw [arePrintable, List.all_append, ← arePrintable, ← arePrintable, hs, ht, Bool.true_and]

theorem arePrintable_cons {c : UInt8} {t : Bytes} (hc : isPrintable c = true)
    (ht : arePrintable t = true) : arePrintable (c :: t) = true := by
  rw [arePrintable, List.all_cons, hc, ← arePrintable, ht, Bool.true_and]

theorem IsJsonText.append {s t : Bytes} (hs : IsJsonText s) (ht : IsJsonText t) :
    IsJsonText (s ++ t) := by
  refine ⟨fun hmem ↦ ?_, ?_⟩
  · exact (List.mem_append.mp hmem).elim hs.newline_notMem ht.newline_notMem
  · have happend : isUtf8 (s ++ t) = isUtf8 t := by
      rw [isUtf8, utf8Chars_append hs.utf8, List.all_append, ← isUtf8, ← isUtf8, hs.utf8,
        Bool.true_and]
    rw [happend, ht.utf8]

theorem arePrintable_decimal (n : ℕ) : arePrintable (decimal n) = true := by
  have hbyte := forall_byte (p := fun c ↦ isAsciiDigit c = true → isPrintable c = true)
    (by decide)
  exact List.all_eq_true.mpr fun c hc ↦ hbyte c (decimal_digits n c hc)

theorem arePrintable_decimalInt (i : ℤ) : arePrintable (decimalInt i) = true := by
  rw [decimalInt]
  split_ifs
  · exact arePrintable_cons rfl (arePrintable_decimal _)
  · exact arePrintable_decimal _

/-- One lower-case hexadecimal digit. -/
def escapeDigit (n : ℕ) : UInt8 := if n < 10 then (48 + n).toUInt8 else (87 + n).toUInt8

/-- The escapes of a string. -/
def escapedByte (c : UInt8) : Bytes :=
  if c = doubleQuote ∨ c = backslash then [backslash, c]
  else if c = 8 then [backslash, ch 'b']
  else if c = 9 then [backslash, ch 't']
  else if c = newline then [backslash, ch 'n']
  else if c = 12 then [backslash, ch 'f']
  else if c = 13 then [backslash, ch 'r']
  else if c < 0x20 then
    ascii "\\u00" ++ [escapeDigit (c.toNat / 16), escapeDigit (c.toNat % 16)]
  else [c]

/-- A `String`, which is valid text. -/
def jsonString (s : Bytes) : Bytes :=
  if isUtf8 s then doubleQuote :: s.flatMap escapedByte ++ [doubleQuote]
  else [doubleQuote, doubleQuote]

/-- What stands for a character of ASCII is printable, and any other byte is kept. -/
theorem escapedByte_spec (c : UInt8) :
    if c < 0x80 then arePrintable (escapedByte c) = true else escapedByte c = [c] :=
  forall_byte (p := fun c ↦
    if c < 0x80 then arePrintable (escapedByte c) = true else escapedByte c = [c])
    (by decide +kernel) c

theorem isUtf8_flatMap_escapedByte {s : Bytes} (h : isUtf8 s = true) :
    isUtf8 (s.flatMap escapedByte) = true := by
  induction hn : s.length using Nat.strong_induction_on generalizing s with
  | _ n ih =>
  subst hn
  cases s with
  | nil => exact h
  | cons c b =>
    have hspec := escapedByte_spec c
    by_cases hc : c < 0x80
    · rw [if_pos hc] at hspec
      have htail : isUtf8 b = true := by
        rw [isUtf8, utf8Chars_cons_ascii hc] at h
        exact h
      rw [List.flatMap_cons, isUtf8, utf8Chars_append (isJsonText_of_printable hspec).utf8,
        List.all_append, ← isUtf8, ← isUtf8, (isJsonText_of_printable hspec).utf8, Bool.true_and]
      exact ih b.length (Nat.lt_succ_self _) htail rfl
    · -- a character of several bytes is written as it is
      obtain ⟨k, m, rfl, -, hk, hfirst, hm⟩ := Str.exists_character h
      rw [if_neg hc] at hspec
      have hkeep : (c :: k).flatMap escapedByte = c :: k := by
        have hall : ∀ d ∈ c :: k, escapedByte d = [d] := by
          refine List.forall_mem_cons.mpr ⟨hspec, fun d hd ↦ ?_⟩
          have hbyte := forall_byte (p := fun d ↦ Str.isContinuation d = true → ¬d < 0x80)
            (by decide) d
          have hother := escapedByte_spec d
          rwa [if_neg (hbyte (hk d hd))] at hother
        rw [List.flatMap_congr hall, List.flatMap_singleton']
      have hrest := ih m.length (by rw [List.length_cons, List.length_append]; omega) hm rfl
      rw [← List.cons_append, List.flatMap_append, hkeep, isUtf8, utf8Chars_append hfirst,
        List.all_append, ← isUtf8, ← isUtf8, hfirst, hrest]
      rfl

theorem jsonString_isJsonText (s : Bytes) : IsJsonText (jsonString s) := by
  rw [jsonString]
  split_ifs with h
  · have hquote : IsJsonText [doubleQuote] := isJsonText_of_printable rfl
    have hinner : IsJsonText (s.flatMap escapedByte) := by
      refine ⟨fun hmem ↦ ?_, isUtf8_flatMap_escapedByte h⟩
      obtain ⟨c, -, hc⟩ := List.mem_flatMap.mp hmem
      have hspec := escapedByte_spec c
      split_ifs at hspec with hascii
      · exact (isJsonText_of_printable hspec).newline_notMem hc
      · rw [hspec, List.mem_singleton] at hc
        exact hascii (hc ▸ by decide)
    exact (hquote.append hinner).append hquote
  · exact isJsonText_of_printable rfl

/-- A finite double `digits * 10 ^ p`: positional up to 16 places, with an exponent beyond. -/
def jsonDecimal (digits : ℕ) (p : ℤ) : Bytes :=
  let text := decimal digits
  let places := text.length + p
  if 0 ≤ p ∧ places ≤ 16 then text ++ List.replicate p.toNat (ch '0') ++ ascii ".0"
  else if 0 < places ∧ places ≤ 16 then
    text.take places.toNat ++ ch '.' :: text.drop places.toNat
  else if -5 < places ∧ places ≤ 0 then
    ascii "0." ++ List.replicate (-places).toNat (ch '0') ++ text
  else if text.length = 1 then text ++ ch 'e' :: decimalInt (places - 1)
  else text.take 1 ++ ch '.' :: text.drop 1 ++ ch 'e' :: decimalInt (places - 1)

/-- A finite double without its sign. -/
def jsonMagnitude (x : F64) : Bytes :=
  if x.magnitude = 0 then ascii "0.0"
  else
    let d := shortestDecimal
      (decodeFloat 52 1023 (x.magnitude / 2 ^ 52) (x.magnitude % 2 ^ 52)) 700 310
    jsonDecimal d.1 d.2

/-- A double: an infinity and a NaN are written as `null`. -/
def jsonF64 (x : F64) : Bytes :=
  if x.isFinite then if x.isNegative then ch '-' :: jsonMagnitude x else jsonMagnitude x
  else ascii "null"

example : jsonF64 (.nearest false 1 500000) = ascii "2e-6" := by decide +kernel

theorem arePrintable_jsonDecimal (digits : ℕ) (p : ℤ) :
    arePrintable (jsonDecimal digits p) = true := by
  have htext := arePrintable_decimal digits
  have hpart {t : Bytes} (h : t ⊆ decimal digits) : arePrintable t = true :=
    List.all_eq_true.mpr fun c hc ↦ List.all_eq_true.mp htext c (h hc)
  have htake (n : ℕ) := hpart (List.take_subset n (decimal digits))
  have hdrop (n : ℕ) := hpart (List.drop_subset n (decimal digits))
  have hzeros (n : ℕ) : arePrintable (List.replicate n (ch '0')) = true :=
    List.all_eq_true.mpr fun c hc ↦ (List.mem_replicate.mp hc).2 ▸ rfl
  have hexp (i : ℤ) : arePrintable (ch 'e' :: decimalInt i) = true :=
    arePrintable_cons rfl (arePrintable_decimalInt i)
  have hpoint {t : Bytes} (h : arePrintable t = true) : arePrintable (ch '.' :: t) = true :=
    arePrintable_cons rfl h
  rw [jsonDecimal]
  split_ifs
  · exact arePrintable_append (arePrintable_append htext (hzeros _)) rfl
  · exact arePrintable_append (htake _) (hpoint (hdrop _))
  · exact arePrintable_append (arePrintable_append rfl (hzeros _)) htext
  · exact arePrintable_append htext (hexp _)
  · exact arePrintable_append (arePrintable_append (htake _) (hpoint (hdrop _))) (hexp _)

theorem arePrintable_jsonF64 (x : F64) : arePrintable (jsonF64 x) = true := by
  have hmagnitude : arePrintable (jsonMagnitude x) = true := by
    rw [jsonMagnitude]
    split_ifs
    · rfl
    · exact arePrintable_jsonDecimal _ _
  rw [jsonF64]
  split_ifs
  · exact arePrintable_cons rfl hmagnitude
  · exact hmagnitude
  · rfl

/-! ## Objects -/

/-- A field of an object: its name and its value. -/
abbrev JsonField := Bytes × Bytes

/-- The names are written as they are, as none of them needs an escape. -/
def jsonField (f : JsonField) : Bytes := doubleQuote :: f.1 ++ doubleQuote :: ch ':' :: f.2

def jsonObject (fields : List JsonField) : Bytes :=
  ch '\x7b' :: [ch ','].intercalate (fields.map jsonField) ++ [ch '\x7d']

def jsonArray (items : List Bytes) : Bytes := ch '[' :: [ch ','].intercalate items ++ [ch ']']

/-- A field that is skipped when there is nothing in it. -/
def optionalField (name : Bytes) (value : Option Bytes) : List JsonField :=
  (value.map fun v ↦ (name, jsonString v)).toList

/-- Fields that can stand in an object. -/
def AreJsonFields (fields : List JsonField) : Prop :=
  ∀ f ∈ fields, arePrintable f.1 = true ∧ IsJsonText f.2

theorem intercalate_isJsonText {items : List Bytes} (h : ∀ t ∈ items, IsJsonText t) :
    IsJsonText ([ch ','].intercalate items) := by
  have hcomma : IsJsonText [ch ','] := isJsonText_of_printable rfl
  induction items with
  | nil => exact isJsonText_of_printable rfl
  | cons t items ih =>
    obtain ⟨ht, hitems⟩ := List.forall_mem_cons.mp h
    cases items with
    | nil => simpa using ht
    | cons t' items =>
      rw [List.intercalate_cons_cons]
      exact (ht.append hcomma).append (ih hitems)

theorem jsonObject_isJsonText {fields : List JsonField} (h : AreJsonFields fields) :
    IsJsonText (jsonObject fields) := by
  have hquote : IsJsonText [doubleQuote] := isJsonText_of_printable rfl
  have hcolon : IsJsonText [doubleQuote, ch ':'] := isJsonText_of_printable rfl
  have hopen : IsJsonText [ch '\x7b'] := isJsonText_of_printable rfl
  have hclose : IsJsonText [ch '\x7d'] := isJsonText_of_printable rfl
  have hfields : IsJsonText ([ch ','].intercalate (fields.map jsonField)) := by
    refine intercalate_isJsonText (List.forall_mem_map.mpr fun f hf ↦ ?_)
    obtain ⟨hname, hvalue⟩ := h f hf
    have hfield : jsonField f = ([doubleQuote] ++ f.1) ++ ([doubleQuote, ch ':'] ++ f.2) := by
      simp [jsonField]
    rw [hfield]
    exact (hquote.append (isJsonText_of_printable hname)).append (hcolon.append hvalue)
  exact (hopen.append hfields).append hclose

theorem jsonArray_isJsonText {items : List Bytes} (h : ∀ t ∈ items, IsJsonText t) :
    IsJsonText (jsonArray items) := by
  have hopen : IsJsonText [ch '['] := isJsonText_of_printable rfl
  have hclose : IsJsonText [ch ']'] := isJsonText_of_printable rfl
  exact (hopen.append (intercalate_isJsonText h)).append hclose

/-! ## Records -/

def eventFields (e : Event) : List JsonField :=
  [(ascii "ts_micros", decimalInt e.tsMicros), (ascii "session_id", decimal e.sessionId)] ++
    (optionalField (ascii "user") e.user ++ (optionalField (ascii "db") e.db ++
      [(ascii "query", jsonString e.query), (ascii "orig_query_time_s", jsonF64 e.origQueryTimeS),
        (ascii "fingerprint_id", decimal e.fingerprintId.toNat)]))

def headerFields (h : Header) : List JsonField :=
  [(ascii "version", decimal h.version.toNat), (ascii "tool_version", jsonString h.toolVersion),
    (ascii "created_at", jsonString h.createdAt)]

def pcapFields (s : PcapSummary) : List JsonField :=
  [(ascii "packets", decimal s.packets), (ascii "truncated_packets", decimal s.truncatedPackets),
    (ascii "ip_fragments_skipped", decimal s.ipFragmentsSkipped),
    (ascii "connections", decimal s.connections),
    (ascii "connections_decoded", decimal s.connectionsDecoded),
    (ascii "connections_tls_skipped", decimal s.connectionsTlsSkipped),
    (ascii "connections_compressed_skipped", decimal s.connectionsCompressedSkipped),
    (ascii "connections_midstream_skipped", decimal s.connectionsMidstreamSkipped),
    (ascii "connections_broken", decimal s.connectionsBroken),
    (ascii "statements_expanded", decimal s.statementsExpanded),
    (ascii "statements_inexpandable", decimal s.statementsInexpandable),
    (ascii "responses_missing", decimal s.responsesMissing),
    (ascii "server_versions", jsonArray (s.serverVersions.map jsonString))]

def fingerprintEntryFields (f : FingerprintEntry) : List JsonField :=
  [(ascii "id", decimal f.id.toNat), (ascii "text", jsonString f.text)]

def summaryFields (s : Summary) : List JsonField :=
  [(ascii "source_dialect", jsonString s.sourceDialect),
    (ascii "event_count", decimal s.eventCount), (ascii "session_count", decimal s.sessionCount),
    (ascii "admin_commands_ignored", decimal s.adminCommandsIgnored),
    (ascii "server_restarts_seen", decimal s.serverRestartsSeen)] ++
  ((s.pcap.map fun p ↦ (ascii "pcap", jsonObject (pcapFields p))).toList ++
    [(ascii "fingerprints", jsonArray (s.fingerprints.map fun f ↦
      jsonObject (fingerprintEntryFields f)))])

/-- `to_vec` of an event. -/
def jsonEvent (e : Event) : Bytes := jsonObject (eventFields e)

/-- The fields of a record, its tag before them. -/
def recordFields : Record → List JsonField
  | .header h => (ascii "type", ascii "\"header\"") :: headerFields h
  | .event e => (ascii "type", ascii "\"event\"") :: eventFields e
  | .summary s => (ascii "type", ascii "\"summary\"") :: summaryFields s

/-- `to_writer` of a record. -/
def jsonRecord (r : Record) : Bytes := jsonObject (recordFields r)

theorem AreJsonFields.cons {name value : Bytes} {fields : List JsonField}
    (hname : arePrintable name = true) (hvalue : IsJsonText value)
    (h : AreJsonFields fields) : AreJsonFields ((name, value) :: fields) :=
  List.forall_mem_cons.mpr ⟨⟨hname, hvalue⟩, h⟩

theorem AreJsonFields.append {fields fields' : List JsonField} (h : AreJsonFields fields)
    (h' : AreJsonFields fields') : AreJsonFields (fields ++ fields') :=
  List.forall_mem_append.mpr ⟨h, h'⟩

theorem areJsonFields_nil : AreJsonFields [] := List.forall_mem_nil _

theorem decimal_isJsonText (n : ℕ) : IsJsonText (decimal n) :=
  isJsonText_of_printable (arePrintable_decimal n)

theorem areJsonFields_optional {name : Bytes} (hname : arePrintable name = true)
    (value : Option Bytes) : AreJsonFields (optionalField name value) := by
  cases value with
  | none => exact areJsonFields_nil
  | some v => exact .cons hname (jsonString_isJsonText v) areJsonFields_nil

theorem areJsonFields_event (e : Event) : AreJsonFields (eventFields e) := by
  have hts : IsJsonText (decimalInt e.tsMicros) :=
    isJsonText_of_printable (arePrintable_decimalInt _)
  have htime : IsJsonText (jsonF64 e.origQueryTimeS) :=
    isJsonText_of_printable (arePrintable_jsonF64 _)
  have hrest : AreJsonFields
      [(ascii "query", jsonString e.query), (ascii "orig_query_time_s", jsonF64 e.origQueryTimeS),
        (ascii "fingerprint_id", decimal e.fingerprintId.toNat)] :=
    .cons rfl (jsonString_isJsonText _) (.cons rfl htime
      (.cons rfl (decimal_isJsonText _) areJsonFields_nil))
  have hfirst : AreJsonFields
      [(ascii "ts_micros", decimalInt e.tsMicros), (ascii "session_id", decimal e.sessionId)] :=
    .cons rfl hts
      (.cons rfl (decimal_isJsonText _) areJsonFields_nil)
  exact .append hfirst
    (.append (areJsonFields_optional rfl _)
      (.append (areJsonFields_optional rfl _) hrest))

theorem areJsonFields_pcap (s : PcapSummary) : AreJsonFields (pcapFields s) := by
  have hversions : IsJsonText (jsonArray (s.serverVersions.map jsonString)) :=
    jsonArray_isJsonText (List.forall_mem_map.mpr fun v _ ↦ jsonString_isJsonText v)
  have hcount (n : ℕ) := decimal_isJsonText n
  unfold pcapFields
  repeat' apply AreJsonFields.cons
  any_goals exact hcount _
  any_goals exact hversions
  any_goals exact areJsonFields_nil
  all_goals rfl

theorem areJsonFields_summary (s : Summary) : AreJsonFields (summaryFields s) := by
  have hcount (n : ℕ) := decimal_isJsonText n
  have hpcap : AreJsonFields (s.pcap.map fun p ↦
      (ascii "pcap", jsonObject (pcapFields p))).toList := by
    cases s.pcap with
    | none => exact areJsonFields_nil
    | some p =>
      exact .cons rfl (jsonObject_isJsonText (areJsonFields_pcap p))
        areJsonFields_nil
  have hentries : IsJsonText (jsonArray (s.fingerprints.map fun f ↦
      jsonObject (fingerprintEntryFields f))) := by
    refine jsonArray_isJsonText (List.forall_mem_map.mpr fun f _ ↦ jsonObject_isJsonText ?_)
    exact .cons rfl (hcount _)
      (.cons rfl (jsonString_isJsonText _) areJsonFields_nil)
  refine .append ?_ (hpcap.append (.cons rfl hentries areJsonFields_nil))
  exact .cons rfl (jsonString_isJsonText _) (.cons rfl (hcount _)
    (.cons rfl (hcount _) (.cons rfl (hcount _)
      (.cons rfl (hcount _) areJsonFields_nil))))

theorem areJsonFields_record (r : Record) : AreJsonFields (recordFields r) := by
  have htag {t : Bytes} (h : arePrintable t = true) := isJsonText_of_printable h
  cases r with
  | header h =>
    exact .cons rfl (htag rfl)
      (.cons rfl (decimal_isJsonText _)
        (.cons rfl (jsonString_isJsonText _)
          (.cons rfl (jsonString_isJsonText _) areJsonFields_nil)))
  | event e => exact .cons rfl (htag rfl) (areJsonFields_event e)
  | summary s =>
    exact .cons rfl (htag rfl) (areJsonFields_summary s)

/-- The line of a record can stand in a file of lines. -/
theorem jsonRecord_isJsonText (r : Record) : IsJsonText (jsonRecord r) :=
  jsonObject_isJsonText (areJsonFields_record r)

/-! ## Telling records apart -/

/-- Which kind of record it is, and of an event its time. -/
inductive RecordTag where
  | header
  | event (tsMicros : ℤ)
  | summary
  deriving DecidableEq

/-- The first letter of the kind. -/
def RecordTag.letter : RecordTag → UInt8
  | .header => ch 'h'
  | .event _ => ch 'e'
  | .summary => ch 's'

theorem RecordTag.eq_of_letter {t t' : RecordTag} (ht : ∀ ts, t ≠ .event ts)
    (h : t.letter = t'.letter) : t = t' := by
  cases t with
  | event ts => exact absurd rfl (ht ts)
  | header =>
    cases t' with
    | header => rfl
    | event _ | summary => dsimp only [letter] at h; exact absurd h (by decide)
  | summary =>
    cases t' with
    | summary => rfl
    | event _ | header => dsimp only [letter] at h; exact absurd h (by decide)

def Record.tag : Record → RecordTag
  | .header _ => .header
  | .event e => .event e.tsMicros
  | .summary _ => .summary

theorem decimal_injective : Function.Injective decimal := by
  intro n m h
  have hn : parseUnsigned (max n m) (decimal n) = some n := parseUnsigned_decimal (le_max_left n m)
  have hm : parseUnsigned (max n m) (decimal m) = some m := parseUnsigned_decimal (le_max_right n m)
  rw [h, hm] at hn
  exact (Option.some.inj hn).symm

theorem decimalInt_injective : Function.Injective decimalInt := by
  intro i j h
  have hminus (n m : ℕ) : ch '-' :: decimal n ≠ decimal m := by
    intro heq
    have hdigit := decimal_digits m (ch '-') (heq ▸ List.mem_cons_self)
    exact absurd hdigit (by decide)
  rw [decimalInt, decimalInt] at h
  split_ifs at h with hi hj hj
  · have := decimal_injective (List.cons.inj h).2
    omega
  · exact absurd h (hminus _ _)
  · exact absurd h.symm (hminus _ _)
  · have := decimal_injective h
    omega

/-- No number has a comma in it. -/
theorem takeWhile_decimalInt (i : ℤ) (rest : Bytes) :
    (decimalInt i ++ ch ',' :: rest).takeWhile (· ≠ ch ',') = decimalInt i := by
  have hcomma : ∀ c ∈ decimalInt i, decide (c ≠ ch ',') = true := by
    have hdigit := forall_byte (p := fun c ↦ isAsciiDigit c = true → decide (c ≠ ch ',') = true)
      (by decide)
    have hdigits (n : ℕ) : ∀ c ∈ decimal n, decide (c ≠ ch ',') = true :=
      fun c hc ↦ hdigit c (decimal_digits n c hc)
    rw [decimalInt]
    split_ifs
    · exact List.forall_mem_cons.mpr ⟨by decide, hdigits _⟩
    · exact hdigits _
  rw [List.takeWhile_append_of_pos hcomma, List.takeWhile_cons_of_neg (by decide), List.append_nil]

theorem decimalInt_of_append_comma {i j : ℤ} {r r' : Bytes}
    (h : decimalInt i ++ ch ',' :: r = decimalInt j ++ ch ',' :: r') : i = j := by
  have hwhile := congrArg (List.takeWhile (· ≠ ch ',')) h
  rw [takeWhile_decimalInt, takeWhile_decimalInt] at hwhile
  exact decimalInt_injective hwhile

theorem jsonObject_cons_cons (f f' : JsonField) (fields : List JsonField) : ∃ rest,
    jsonObject (f :: f' :: fields) = ch '\x7b' :: (jsonField f ++ ch ',' :: rest) := by
  refine ⟨[ch ','].intercalate ((f' :: fields).map jsonField) ++ [ch '\x7d'], ?_⟩
  rw [jsonObject, List.map_cons, List.map_cons, List.intercalate_cons_cons]
  simp only [List.append_assoc, List.cons_append, List.nil_append]

/-- An event begins with its time. -/
theorem jsonEvent_eq (e : Event) : ∃ rest,
    jsonEvent e = ascii "\x7b\"ts_micros\":" ++ (decimalInt e.tsMicros ++ ch ',' :: rest) :=
  jsonObject_cons_cons _ _ _

/-- So does its record, behind the tag. -/
theorem jsonRecord_event (e : Event) : ∃ rest, jsonRecord (.event e) =
    ascii "\x7b\"type\":\"event\",\"ts_micros\":" ++ (decimalInt e.tsMicros ++ ch ',' :: rest) := by
  refine ⟨[ch ','].intercalate ((eventFields e).tail.map jsonField) ++ [ch '\x7d'], ?_⟩
  have hfields : eventFields e =
      (ascii "ts_micros", decimalInt e.tsMicros) :: (eventFields e).tail := rfl
  have htail : (eventFields e).tail = (ascii "session_id", decimal e.sessionId) ::
      (eventFields e).tail.tail := rfl
  rw [jsonRecord, recordFields, jsonObject, hfields, List.tail_cons, htail]
  simp only [List.map_cons, List.intercalate_cons_cons]
  simp only [List.append_assoc, List.cons_append, List.nil_append]
  rfl

/-- The time of an event can be told from what is written of it. -/
theorem tsMicros_of_jsonEvent_eq {e e' : Event} (h : jsonEvent e = jsonEvent e') :
    e.tsMicros = e'.tsMicros := by
  obtain ⟨r, hr⟩ := jsonEvent_eq e
  obtain ⟨r', hr'⟩ := jsonEvent_eq e'
  rw [hr, hr'] at h
  exact decimalInt_of_append_comma (List.append_cancel_left h)

/-- A record's tag can be told from its line. -/
theorem tag_eq_of_jsonRecord_eq {r r' : Record} (h : jsonRecord r = jsonRecord r') :
    r.tag = r'.tag := by
  have hhead (r : Record) :
      (jsonRecord r).take 10 = ascii "\x7b\"type\":\"" ++ [r.tag.letter] := by
    cases r <;> rfl
  have hletter : r.tag.letter = r'.tag.letter := by
    have hheads := congrArg (List.take 10) h
    rw [hhead r, hhead r'] at hheads
    exact (List.cons.inj (List.append_cancel_left hheads)).1
  cases r with
  | header _ => exact RecordTag.eq_of_letter (fun _ ↦ RecordTag.noConfusion) hletter
  | summary _ => exact RecordTag.eq_of_letter (fun _ ↦ RecordTag.noConfusion) hletter
  | event e =>
    cases r' with
    | header _ => exact (RecordTag.eq_of_letter (fun _ ↦ RecordTag.noConfusion) hletter.symm).symm
    | summary _ => exact (RecordTag.eq_of_letter (fun _ ↦ RecordTag.noConfusion) hletter.symm).symm
    | event e' =>
      obtain ⟨rest, hrest⟩ := jsonRecord_event e
      obtain ⟨rest', hrest'⟩ := jsonRecord_event e'
      rw [hrest, hrest'] at h
      exact congrArg RecordTag.event (decimalInt_of_append_comma (List.append_cancel_left h))

/-! ## Reading records back -/

/-- No two of the records are of the same kind, events of the same time. -/
def ToldApart (rs : List Record) : Prop := ∀ r ∈ rs, ∀ r' ∈ rs, r.tag = r'.tag → r = r'

instance : DecidablePred ToldApart := fun rs ↦
  inferInstanceAs (Decidable (∀ r ∈ rs, ∀ r' ∈ rs, r.tag = r'.tag → r = r'))

/-- `serde_json` on some records, which it writes and finds again by what it has written. -/
def jsonSerde (rs : List Record) : SerdeJson where
  toWriter := jsonRecord
  fromStr line := (rs.find? fun r ↦ jsonRecord r == line).bind (Record.reread id)
  toVec := jsonEvent
  fromSlice body := rs.findSome? fun r ↦
    match r with
    | .event e => if jsonEvent e = body ∧ e.origQueryTimeS.isFinite then some e else none
    | _ => none

variable {rs : List Record}

theorem jsonSerde_fromStr (h : ToldApart rs) {r : Record} (hr : r ∈ rs) :
    (jsonSerde rs).fromStr (jsonRecord r) = r.reread id := by
  obtain ⟨r', hfind⟩ : ∃ r', rs.find? (fun r' ↦ jsonRecord r' == jsonRecord r) = some r' :=
    Option.isSome_iff_exists.mp (List.find?_isSome.mpr ⟨r, hr, beq_self_eq_true _⟩)
  have hfound := List.find?_some hfind
  have hline : jsonRecord r' = jsonRecord r := beq_iff_eq.mp hfound
  have hsame : r' = r := h r' (List.mem_of_find?_eq_some hfind) r hr (tag_eq_of_jsonRecord_eq hline)
  rw [jsonSerde]
  dsimp only
  rw [hfind, hsame]
  rfl

theorem jsonSerde_documented (h : ToldApart rs) {r : Record} (hr : r ∈ rs) :
    (jsonSerde rs).Documented id r := by
  obtain ⟨hnewline, hutf8⟩ := jsonRecord_isJsonText r
  exact ⟨hnewline, hutf8, ⟨_, rfl⟩, jsonSerde_fromStr h hr⟩

/-- What is read is one of the records, with a finite latency if it is an event. -/
theorem jsonSerde_event {line : Bytes} {e : Event}
    (h : (jsonSerde rs).fromStr line = some (.event e)) :
    Record.event e ∈ rs ∧ e.origQueryTimeS.isFinite = true := by
  rw [jsonSerde] at h
  obtain ⟨r, hfind, hread⟩ := Option.bind_eq_some_iff.mp h
  have hmem := List.mem_of_find?_eq_some hfind
  cases r with
  | header _ => exact absurd (Option.some.inj hread) (by simp)
  | summary _ => exact absurd (Option.some.inj hread) (by simp)
  | event e' =>
    rw [Record.reread] at hread
    split_ifs at hread with hfinite
    obtain rfl := Record.event.inj (Option.some.inj hread)
    exact ⟨hmem, hfinite⟩

theorem jsonSerde_fromSlice (h : ToldApart rs) {e : Event} (he : Record.event e ∈ rs)
    (hfinite : e.origQueryTimeS.isFinite = true) :
    (jsonSerde rs).fromSlice (jsonEvent e) = some e := by
  rw [jsonSerde]
  dsimp only
  cases hfind : rs.findSome? _ with
  | none =>
    have hnone := List.findSome?_eq_none_iff.mp hfind _ he
    dsimp only at hnone
    rw [if_pos ⟨rfl, hfinite⟩] at hnone
    cases hnone
  | some e' =>
    obtain ⟨r, hr, hmatch⟩ := List.exists_of_findSome?_eq_some hfind
    cases r with
    | header _ => cases hmatch
    | summary _ => cases hmatch
    | event x =>
      dsimp only at hmatch
      split_ifs at hmatch with hbody
      obtain rfl := Option.some.inj hmatch
      have htag : (Record.event x).tag = (Record.event e).tag :=
        congrArg RecordTag.event (tsMicros_of_jsonEvent_eq hbody.1)
      rw [Record.event.inj (h _ hr _ he htag)]

end SqlReplay
