import SqlReplay.Data.Register
import SqlReplay.Slowlog.LogEntry

/-!
# Isolation of entries

Two logs that differ in the headers of one entry are read alike but for what those headers name.
Whether another entry's query shows the difference depends on what comes between: the user and the
thread stay in the parser until a header names others, the schema until then or until a statement or
an administrator command ends an entry. An entry whose headers have an empty user or no id inherits
those of an earlier one.

Each carried field is a register that an entry may write and that its end may clear, and a later
query is shielded from the entry exactly when each register was written or cleared in between
(`LogEntry.Shielded`).
-/

namespace SqlReplay

open SlowLogParser

/-- What headers decide of a query. -/
def ParsedQuery.attribution (q : ParsedQuery) : Option Bytes × ℕ × Option Bytes × F64 :=
  (q.user, q.threadId, q.db, q.queryTimeS)

/-! ## The registers -/

namespace LogEntry

/-- What an entry does to the user. -/
def userOp (e : LogEntry) : RegisterOp Bytes := ⟨e.named.user, false⟩

/-- What it does to the thread. -/
def threadIdOp (e : LogEntry) : RegisterOp ℕ := ⟨e.named.threadId, false⟩

/-- What it does to the schema. -/
def schemaOp (e : LogEntry) : RegisterOp Bytes := ⟨e.named.schema, e.content.ends⟩

end LogEntry

namespace SlowLogParser

variable {crate : TimeCrate} {p q : SlowLogParser}

theorem readsEntries_append {es es' : List LogEntry} : p.ReadsEntries crate (es ++ es') ↔
    p.ReadsEntries crate es ∧ (p.behindAll crate es).ReadsEntries crate es' := by
  induction es generalizing p with
  | nil => exact (and_iff_right trivial).symm
  | cons e es ih =>
    rw [List.cons_append, ReadsEntries, ReadsEntries, ih, and_assoc]
    rfl

theorem entryQueries_append (p : SlowLogParser) (es es' : List LogEntry) :
    p.entryQueries crate (es ++ es') =
      p.entryQueries crate es ++ (p.behindAll crate es).entryQueries crate es' := by
  induction es generalizing p with
  | nil => rfl
  | cons e es ih => rw [List.cons_append, entryQueries, entryQueries, ih]; rfl

theorem length_entryQueries (crate : TimeCrate) (p : SlowLogParser) (es : List LogEntry) :
    (p.entryQueries crate es).length = es.length := by
  induction es generalizing p with
  | nil => rfl
  | cons e es ih => rw [entryQueries, List.length_cons, ih, List.length_cons]

/-- The carried fields behind entries. -/
theorem behindAll_carried {es : List LogEntry} (hes : p.ReadsEntries crate es) :
    (p.behindAll crate es).carried.user = RegisterOp.run (es.map LogEntry.userOp) p.carried.user ∧
      (p.behindAll crate es).carried.threadId =
        RegisterOp.run (es.map LogEntry.threadIdOp) p.carried.threadId ∧
      (p.behindAll crate es).carried.schema =
        RegisterOp.run (es.map LogEntry.schemaOp) p.carried.schema := by
  induction es generalizing p with
  | nil => exact ⟨rfl, rfl, rfl⟩
  | cons e es ih =>
    obtain ⟨he, hes⟩ := hes
    obtain ⟨huser, hthread, hschema⟩ := ih hes
    rw [LogEntry.behind_carried he] at huser hthread hschema
    refine ⟨huser.trans ?_, hthread.trans ?_, hschema.trans ?_⟩
    · split_ifs <;> rfl
    · split_ifs <;> rfl
    · rw [List.map_cons, RegisterOp.run, RegisterOp.run, List.foldl_cons, RegisterOp.after]
      show _ = List.foldl _ (if e.content.ends then none else _) _
      split_ifs <;> rfl

/-- Entries in another log that has the same text. -/
theorem SameText.readsEntries (h : SameText p q) {es : List LogEntry}
    (hes : p.ReadsEntries crate es) :
    q.ReadsEntries crate es ∧ SameText (p.behindAll crate es) (q.behindAll crate es) := by
  induction es generalizing p q with
  | nil => exact ⟨trivial, h⟩
  | cons e es ih =>
    obtain ⟨he, hes⟩ := hes
    obtain ⟨hwell, -, hbehind⟩ := he.of_sameText h he.headers
    obtain ⟨hreads, hsame⟩ := ih hbehind hes
    exact ⟨⟨hwell, hreads⟩, hsame⟩

end SlowLogParser

/-! ## Attribution -/

namespace LogEntry

variable {crate : TimeCrate} {p q : SlowLogParser} {e : LogEntry}

/-- What the headers decide of the entry's query. -/
theorem query_attribution (he : e.WellFormed crate p) :
    (e.query crate p).map ParsedQuery.attribution = e.content.text.map fun _ ↦
      ((e.named.or p.carried).user, (e.named.or p.carried).threadId.getD 0,
        (e.named.or p.carried).schema.or (e.behindMetadata crate p).currentDb,
        (e.named.queryTime.getD .zero)) := by
  have hcarried := behindMetadata_carried he
  obtain ⟨t, ht⟩ := Option.isSome_iff_exists.mp he.headers.queryTime
  have htime : (e.behindMetadata crate p).queryTimeS = e.named.queryTime.getD .zero := by
    have hsome := congrArg Named.queryTime hcarried
    rw [named, ht]
    rw [Named.or, named, ht] at hsome
    exact Option.some.inj hsome
  rw [query, Option.map_map]
  refine congrArg (e.content.text.map ·) (funext fun text ↦ ?_)
  rw [← hcarried, ← htime]
  rfl

end LogEntry

/-! ## When an entry is isolated -/

/-- The query of `j`, with the entries `mid` in between, is shielded from what `e` names. -/
structure LogEntry.Shielded (e : LogEntry) (mid : List LogEntry) (j : LogEntry) : Prop where
  user : ∃ i ∈ mid ++ [j], i.named.user.isSome = true
  threadId : ∃ i ∈ mid ++ [j], i.named.threadId.isSome = true
  schema : (∃ i ∈ e :: mid, i.content.ends = true) ∨
    ∃ i ∈ mid ++ [j], i.named.schema.isSome = true

namespace SlowLog

variable (crate : TimeCrate) (prelude : List Bytes) (pre : List LogEntry) (e : LogEntry)
  (post : List LogEntry)

/-- A log with other header lines for one of its entries. -/
def withHeaders (headers : List Bytes) : SlowLog := ⟨prelude, pre ++ e.withHeaders headers :: post⟩

/-- No other query depends on the header lines of the entry. -/
def Isolates : Prop :=
  ∀ h h', CompleteHeaders h → CompleteHeaders h' → ∀ i, i ≠ pre.length →
    (((withHeaders prelude pre e post h).queries crate)[i]?).map
        (Option.map ParsedQuery.attribution) =
      (((withHeaders prelude pre e post h').queries crate)[i]?).map
        (Option.map ParsedQuery.attribution)

end SlowLog

/-! ## Sections of a log -/

section Sections

variable {crate : TimeCrate} {p q : SlowLogParser} {e j : LogEntry} {mid : List LogEntry}

theorem exists_mem_concat {P : LogEntry → Prop} :
    (∃ i ∈ mid ++ [j], P i) ↔ P j ∨ ∃ i ∈ mid, P i := by
  constructor
  · rintro ⟨i, hi, hP⟩
    rcases List.mem_append.mp hi with hi | hi
    · exact Or.inr ⟨i, hi, hP⟩
    · exact Or.inl (List.mem_singleton.mp hi ▸ hP)
  · rintro (hP | ⟨i, hi, hP⟩)
    · exact ⟨j, List.mem_append_right _ List.mem_cons_self, hP⟩
    · exact ⟨i, List.mem_append_left _ hi, hP⟩

theorem shields_map {α : Type*} (op : LogEntry → RegisterOp α) : RegisterOp.Shields (mid.map op) ↔
    ∃ i ∈ mid, (op i).write.isSome = true ∨ (op i).clears = true := by
  constructor
  · rintro ⟨_, hop, h⟩
    obtain ⟨i, hi, rfl⟩ := List.mem_map.mp hop
    exact ⟨i, hi, h⟩
  · rintro ⟨i, hi, h⟩
    exact ⟨op i, List.mem_map_of_mem hi, h⟩

/-- Entries that only write. -/
theorem shields_writes {α : Type*} (op : LogEntry → RegisterOp α)
    (hop : ∀ i, (op i).clears = false) : ((op j).write.isSome = true ∨
      RegisterOp.Shields (mid.map op)) ↔ ∃ i ∈ mid ++ [j], (op i).write.isSome = true := by
  rw [exists_mem_concat, shields_map]
  refine or_congr_right (exists_congr fun i ↦ and_congr_right fun _ ↦ ?_)
  rw [hop i]
  exact or_iff_left Bool.false_ne_true

/-- What the headers decide of the query of `j` behind `mid`. -/
theorem attribution_behindAll (hp : p.ReadsEntries crate (mid ++ [j])) :
    (j.query crate (p.behindAll crate mid)).map ParsedQuery.attribution =
      j.content.text.map fun _ ↦
        (j.userOp.read (RegisterOp.run (mid.map LogEntry.userOp) p.carried.user),
          (j.threadIdOp.read
            (RegisterOp.run (mid.map LogEntry.threadIdOp) p.carried.threadId)).getD 0,
          (j.schemaOp.read (RegisterOp.run (mid.map LogEntry.schemaOp) p.carried.schema)).or
            (j.behindMetadata crate (p.behindAll crate mid)).currentDb,
          j.named.queryTime.getD .zero) := by
  obtain ⟨hmid, hj, -⟩ := readsEntries_append.mp hp
  obtain ⟨huser, hthread, hschema⟩ := behindAll_carried hmid
  rw [LogEntry.query_attribution hj, ← huser, ← hthread, ← hschema]
  rfl

end Sections

/-! ## Both directions -/

namespace LogEntry

variable {crate : TimeCrate} {p q : SlowLogParser} {e j : LogEntry} {mid : List LogEntry}

/-- A shielded query is the same in two logs that differ in what `e` named. -/
theorem Shielded.attribution_eq (h : e.Shielded mid j) (hsame : SameText p q)
    (hp : p.ReadsEntries crate (mid ++ [j]))
    (hschema : e.content.ends = true → p.carried.schema = q.carried.schema) :
    (j.query crate (p.behindAll crate mid)).map ParsedQuery.attribution =
      (j.query crate (q.behindAll crate mid)).map ParsedQuery.attribution := by
  obtain ⟨hq, -⟩ := hsame.readsEntries hp
  obtain ⟨hmid, hj, -⟩ := readsEntries_append.mp hp
  have hdb := (hj.of_sameText (hsame.readsEntries hmid).2 hj.headers).2.1.currentDb
  have huser := RegisterOp.read_run_of_shields
    ((shields_writes LogEntry.userOp fun _ ↦ rfl).mpr h.user) p.carried.user q.carried.user
  have hthread := RegisterOp.read_run_of_shields
    ((shields_writes LogEntry.threadIdOp fun _ ↦ rfl).mpr h.threadId) p.carried.threadId
      q.carried.threadId
  have hread : j.schemaOp.read (RegisterOp.run (mid.map schemaOp) p.carried.schema) =
      j.schemaOp.read (RegisterOp.run (mid.map schemaOp) q.carried.schema) := by
    by_cases hends : e.content.ends = true
    · rw [hschema hends]
    · refine RegisterOp.read_run_of_shields ?_ _ _
      rw [shields_map]
      rcases h.schema with ⟨i, hi, hclears⟩ | hwrite
      · rcases List.mem_cons.mp hi with rfl | hi
        · exact absurd hclears hends
        · exact Or.inr ⟨i, hi, Or.inr hclears⟩
      · exact (exists_mem_concat.mp hwrite).imp_right fun ⟨i, hi, hwrite⟩ ↦ ⟨i, hi, Or.inl hwrite⟩
  rw [attribution_behindAll hp, attribution_behindAll hq, huser, hthread, hread]
  exact congrArg (fun db ↦ j.content.text.map fun _ ↦ (_, _, Option.or _ db, _)) hdb.symm

/-- A query that is the same whatever `e` named is shielded from it. -/
theorem shielded_of_attribution_eq (hp : p.ReadsEntries crate (mid ++ [j]))
    (hq : q.ReadsEntries crate (mid ++ [j])) (htext : j.content.text ≠ none)
    (heq : (j.query crate (p.behindAll crate mid)).map ParsedQuery.attribution =
      (j.query crate (q.behindAll crate mid)).map ParsedQuery.attribution)
    (huser : p.carried.user ≠ q.carried.user)
    (hthread : p.carried.threadId.getD 0 ≠ q.carried.threadId.getD 0)
    (hschema : e.content.ends = false → ∃ a b, a ≠ b ∧ p.carried.schema = some a ∧
      q.carried.schema = some b) : e.Shielded mid j := by
  obtain ⟨text, htext⟩ := Option.ne_none_iff_exists'.mp htext
  rw [attribution_behindAll hp, attribution_behindAll hq, htext, Option.map_some, Option.map_some,
    Option.some.injEq, Prod.mk.injEq, Prod.mk.injEq, Prod.mk.injEq] at heq
  obtain ⟨hu, ht, hs, -⟩ := heq
  refine ⟨(shields_writes LogEntry.userOp fun _ ↦ rfl).mp ?_,
    (shields_writes LogEntry.threadIdOp fun _ ↦ rfl).mp ?_, ?_⟩
  · by_contra hopen
    rw [RegisterOp.read_run_of_not_shields hopen, RegisterOp.read_run_of_not_shields hopen] at hu
    exact huser hu
  · by_contra hopen
    rw [RegisterOp.read_run_of_not_shields hopen, RegisterOp.read_run_of_not_shields hopen] at ht
    exact hthread ht
  · by_contra hopen
    rw [not_or, List.exists_mem_cons_iff, not_or, exists_mem_concat, not_or] at hopen
    obtain ⟨⟨hends, hclears⟩, hwrite, hwrites⟩ := hopen
    obtain ⟨a, b, hab, ha, hb⟩ := hschema (Bool.eq_false_of_not_eq_true hends)
    have hopen : ¬((j.schemaOp).write.isSome = true ∨
        RegisterOp.Shields (mid.map LogEntry.schemaOp)) := by
      rw [shields_map, not_or]
      refine ⟨hwrite, ?_⟩
      rintro ⟨i, hi, hop | hop⟩
      · exact hwrites ⟨i, hi, hop⟩
      · exact hclears ⟨i, hi, hop⟩
    rw [RegisterOp.read_run_of_not_shields hopen, RegisterOp.read_run_of_not_shields hopen, ha, hb,
      Option.some_or, Option.some_or] at hs
    exact hab (Option.some.inj hs)

end LogEntry

/-! ## The whole log -/

/-- Header lines that name the user and schema `name` and the thread `id`. -/
def namingHeaders (name id : Bytes) : List Bytes :=
  [ascii "# User@Host: " ++ name ++ ascii "[] @ h []  Id: " ++ id,
    ascii "# Thread_id: " ++ id ++ ascii "  Schema: " ++ name,
    ascii "# Query_time: 1  Lock_time: 0"]

theorem namingHeaders_named :
    (Named.ofLines (namingHeaders (ascii "a") (ascii "1")) =
      { Named.ofLines (namingHeaders (ascii "a") (ascii "1")) with
        user := some (ascii "a"), threadId := some 1, schema := some (ascii "a") }) ∧
    (Named.ofLines (namingHeaders (ascii "b") (ascii "2")) =
      { Named.ofLines (namingHeaders (ascii "b") (ascii "2")) with
        user := some (ascii "b"), threadId := some 2, schema := some (ascii "b") }) ∧
    (Named.ofLines (namingHeaders (ascii "a") (ascii "1"))).queryTime.isSome = true ∧
    (Named.ofLines (namingHeaders (ascii "b") (ascii "2"))).queryTime.isSome = true := by
  decide +kernel

theorem completeHeaders_a : CompleteHeaders (namingHeaders (ascii "a") (ascii "1")) :=
  ⟨by decide, by decide, by decide, namingHeaders_named.2.2.1⟩

theorem completeHeaders_b : CompleteHeaders (namingHeaders (ascii "b") (ascii "2")) :=
  ⟨by decide, by decide, by decide, namingHeaders_named.2.2.2⟩

namespace SlowLog

variable {crate : TimeCrate} {prelude : List Bytes} {pre : List LogEntry} {e : LogEntry}
  {post : List LogEntry}

/-- The parser behind the entry with other header lines. -/
def behindWith (crate : TimeCrate) (prelude : List Bytes) (pre : List LogEntry) (e : LogEntry)
    (headers : List Bytes) : SlowLogParser :=
  (e.withHeaders headers).behind crate
    ((SlowLogParser.consumeMetaLines {} crate prelude).behindAll crate pre)

theorem queries_withHeaders (headers : List Bytes) :
    (withHeaders prelude pre e post headers).queries crate =
      (SlowLogParser.consumeMetaLines {} crate prelude).entryQueries crate pre ++
        (e.withHeaders headers).query crate
          ((SlowLogParser.consumeMetaLines {} crate prelude).behindAll crate pre) ::
            (behindWith crate prelude pre e headers).entryQueries crate post :=
  entryQueries_append _ _ _

section WellFormed

variable (h : (⟨prelude, pre ++ e :: post⟩ : SlowLog).WellFormed crate)
include h

/-- Behind the entry the text is the same whatever its headers name, and the carried fields are
theirs. -/
theorem behindWith_spec {headers : List Bytes} (hheaders : CompleteHeaders headers) :
    (withHeaders prelude pre e post headers).WellFormed crate ∧
      SameText (e.behind crate ((SlowLogParser.consumeMetaLines {} crate prelude).behindAll crate
        pre)) (behindWith crate prelude pre e headers) ∧
      (behindWith crate prelude pre e headers).ReadsEntries crate post ∧
      (behindWith crate prelude pre e headers).carried =
        let n := (Named.ofLines headers).or
          ((SlowLogParser.consumeMetaLines {} crate prelude).behindAll crate pre).carried
        if e.content.ends then n.cleared else n := by
  obtain ⟨hpre, he, hpost⟩ := readsEntries_append.mp h.entries
  obtain ⟨hwell, -, hsame⟩ := he.of_sameText (SameText.refl _) hheaders
  obtain ⟨hreads, -⟩ := hsame.readsEntries hpost
  exact ⟨⟨h.prelude, readsEntries_append.mpr ⟨hpre, hwell, hreads⟩⟩, hsame, hreads,
    LogEntry.behind_carried hwell⟩

/-- The headers of an entry decide nothing of the others exactly when every later query is
shielded. -/
theorem isolates_iff_shielded : Isolates crate prelude pre e post ↔
    ∀ mid j rest, post = mid ++ j :: rest → j.content.text ≠ none → e.Shielded mid j := by
  have hlater (headers : List Bytes) (n : ℕ) :
      ((withHeaders prelude pre e post headers).queries crate)[pre.length + (n + 1)]? =
        ((behindWith crate prelude pre e headers).entryQueries crate post)[n]? := by
    rw [queries_withHeaders, List.getElem?_append_right (by rw [length_entryQueries]; omega),
      length_entryQueries, Nat.add_sub_cancel_left, List.getElem?_cons_succ]
  have hquery (headers : List Bytes) {mid : List LogEntry} {j : LogEntry} {rest : List LogEntry}
      (hpost : post = mid ++ j :: rest) :
      ((behindWith crate prelude pre e headers).entryQueries crate post)[mid.length]? =
        some (j.query crate ((behindWith crate prelude pre e headers).behindAll crate mid)) := by
    rw [hpost, entryQueries_append, List.getElem?_append_right (by rw [length_entryQueries]),
      length_entryQueries, Nat.sub_self]
    rfl
  have hreads {headers : List Bytes} (hheaders : CompleteHeaders headers) {mid : List LogEntry}
      {j : LogEntry} {rest : List LogEntry} (hpost : post = mid ++ j :: rest) :
      (behindWith crate prelude pre e headers).ReadsEntries crate (mid ++ [j]) := by
    have hall := (behindWith_spec h hheaders).2.2.1
    rw [hpost, List.append_cons] at hall
    exact (readsEntries_append.mp hall).1
  constructor
  · -- headers that name different users, threads and databases show up where nothing shields
    intro hiso mid j rest hpost htext
    obtain ⟨-, -, -, ha⟩ := behindWith_spec h completeHeaders_a
    obtain ⟨-, -, -, hb⟩ := behindWith_spec h completeHeaders_b
    have heq := hiso _ _ completeHeaders_a completeHeaders_b (pre.length + (mid.length + 1))
      (by omega)
    rw [hlater, hlater, hquery _ hpost, hquery _ hpost, Option.map_some, Option.map_some,
      Option.some.injEq] at heq
    obtain ⟨hnamea, hnameb, -⟩ := namingHeaders_named
    rw [hnamea] at ha
    rw [hnameb] at hb
    refine LogEntry.shielded_of_attribution_eq (hreads completeHeaders_a hpost)
      (hreads completeHeaders_b hpost) htext heq ?_ ?_ fun hends ↦ ?_
    · rw [ha, hb]
      split_ifs <;> exact fun heq ↦ absurd (Option.some.inj heq) (by decide)
    · rw [ha, hb]
      split_ifs <;> exact Nat.succ_ne_self 1 ∘ Eq.symm
    · rw [ha, hb, hends]
      exact ⟨ascii "a", ascii "b", by decide, rfl, rfl⟩
  · intro hshielded h₁ h₂ hh₁ hh₂ i hi
    obtain ⟨-, hsame₁, -, hcarried₁⟩ := behindWith_spec h hh₁
    obtain ⟨-, hsame₂, -, hcarried₂⟩ := behindWith_spec h hh₂
    rcases Nat.lt_or_gt_of_ne hi with hlt | hgt
    · -- in front of the entry the logs are one
      rw [← length_entryQueries crate (consumeMetaLines {} crate prelude) pre] at hlt
      rw [queries_withHeaders, queries_withHeaders, List.getElem?_append_left hlt,
        List.getElem?_append_left hlt]
    · -- behind it each entry with a text is shielded
      obtain ⟨n, rfl⟩ := Nat.exists_eq_add_of_lt hgt
      rw [Nat.add_assoc, hlater, hlater]
      rcases Nat.lt_or_ge n post.length with hn | hn
      · have hpost : post = post.take n ++ post[n] :: post.drop (n + 1) := by
          rw [← List.drop_eq_getElem_cons hn, List.take_append_drop]
        have hlength : (post.take n).length = n := List.length_take_of_le hn.le
        have hquery₁ := hquery h₁ hpost
        have hquery₂ := hquery h₂ hpost
        rw [hlength] at hquery₁ hquery₂
        rw [hquery₁, hquery₂, Option.map_some, Option.map_some]
        refine congrArg some ?_
        by_cases htext : post[n].content.text = none
        · rw [LogEntry.query, LogEntry.query, htext]
          rfl
        · refine (hshielded _ _ _ hpost htext).attribution_eq (hsame₁.symm.trans hsame₂)
            (hreads hh₁ hpost) fun hends ↦ ?_
          rw [hcarried₁, hcarried₂, hends]
          rfl
      · rw [List.getElem?_eq_none (by rwa [length_entryQueries]),
          List.getElem?_eq_none (by rwa [length_entryQueries])]

end WellFormed

end SlowLog

/-! ## A header that names nothing -/

namespace SlowLog

/-- **The headers of an entry are isolated exactly when every later query is shielded from them.**
The first part says that the places of `queries` are what the parser gives of the log. -/
theorem isolates_iff (crate : TimeCrate) {prelude : List Bytes} {pre : List LogEntry}
    {e : LogEntry} {post : List LogEntry}
    (h : (⟨prelude, pre ++ e :: post⟩ : SlowLog).WellFormed crate) :
    (∀ headers, CompleteHeaders headers →
      (withHeaders prelude pre e post headers).WellFormed crate ∧
        parseLog crate (withHeaders prelude pre e post headers).lines =
          ((withHeaders prelude pre e post headers).queries crate).reduceOption) ∧
      (Isolates crate prelude pre e post ↔ ∀ mid j rest, post = mid ++ j :: rest →
        j.content.text ≠ none → e.Shielded mid j) := by
  refine ⟨fun headers hheaders ↦ ?_, isolates_iff_shielded h⟩
  have hwell := (behindWith_spec h hheaders).1
  exact ⟨hwell, parseLog_lines hwell⟩

/-- A crate that reads no time. -/
def noTimes : TimeCrate := ⟨fun _ ↦ none, fun _ _ _ _ _ _ ↦ none⟩

/-- An entry of one statement. -/
def oneStatement (headers : List Bytes) : LogEntry where
  time := []
  headers := headers
  metadata := [ascii "SET timestamp=1;"]
  content := .statement (ascii "SELECT 1;") []
  trailer := []

/-- Header lines with an empty user and without an id. -/
def namelessHeaders : List Bytes :=
  [ascii "# User@Host: [] @ h []", ascii "# Query_time: 1  Lock_time: 0"]

theorem completeHeaders_nameless : CompleteHeaders namelessHeaders :=
  ⟨by decide, by decide, by decide, by decide +kernel⟩

/-- Such an entry is read by any parser between two entries. -/
theorem oneStatement_wellFormed {p : SlowLogParser} (hp : SameText {} p) {headers : List Bytes}
    (h : CompleteHeaders headers) :
    (oneStatement headers).WellFormed noTimes p ∧
      SameText {} ((oneStatement headers).behind noTimes p) := by
  have hfirst : (oneStatement namelessHeaders).WellFormed noTimes {} :=
    ⟨by decide, completeHeaders_nameless,
      ⟨by decide, by decide +kernel⟩,
      ⟨by decide, by decide +kernel, trivial, by decide +kernel⟩,
      ⟨by decide, by decide⟩, fun _ _ _ ↦ nofun⟩
  obtain ⟨hwell, -, hbehind⟩ := hfirst.of_sameText hp h
  refine ⟨hwell, SameText.trans ?_ hbehind⟩
  exact ⟨by decide, by decide +kernel, by decide, by decide,
    by decide⟩

/-- Two entries, the second of which names neither a user nor an id. -/
theorem twoEntries_wellFormed : (⟨[], [] ++ oneStatement namelessHeaders ::
    [oneStatement namelessHeaders]⟩ : SlowLog).WellFormed noTimes := by
  obtain ⟨hfirst, hbehind⟩ := oneStatement_wellFormed (SameText.refl {}) completeHeaders_nameless
  refine ⟨⟨nofun, rfl⟩, hfirst, ?_, trivial⟩
  exact (oneStatement_wellFormed hbehind completeHeaders_nameless).1

theorem isolates_iff_twoEntries :
    (∀ headers, CompleteHeaders headers →
      (withHeaders [] [] (oneStatement namelessHeaders) [oneStatement namelessHeaders]
          headers).WellFormed noTimes ∧
        parseLog noTimes (withHeaders [] [] (oneStatement namelessHeaders)
            [oneStatement namelessHeaders] headers).lines =
          ((withHeaders [] [] (oneStatement namelessHeaders) [oneStatement namelessHeaders]
            headers).queries noTimes).reduceOption) ∧
      (Isolates noTimes [] [] (oneStatement namelessHeaders) [oneStatement namelessHeaders] ↔
        ∀ mid j rest, [oneStatement namelessHeaders] = mid ++ j :: rest →
          j.content.text ≠ none → (oneStatement namelessHeaders).Shielded mid j) :=
  isolates_iff noTimes twoEntries_wellFormed

/-- The second of two entries carries the user and the id of the first. -/
theorem not_isolates : ¬∀ (crate : TimeCrate) (prelude : List Bytes) (pre : List LogEntry)
    (e : LogEntry) (post : List LogEntry),
      (⟨prelude, pre ++ e :: post⟩ : SlowLog).WellFormed crate →
        Isolates crate prelude pre e post := by
  intro h
  have heq := h noTimes [] [] (oneStatement namelessHeaders) [oneStatement namelessHeaders]
    twoEntries_wellFormed _ _ completeHeaders_a completeHeaders_b 1 Nat.one_ne_zero
  exact absurd heq (by decide +kernel)

end SlowLog

end SqlReplay
