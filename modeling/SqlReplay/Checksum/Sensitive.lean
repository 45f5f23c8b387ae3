import SqlReplay.Checksum.OrderFree
import SqlReplay.Data.PrefixCode

/-!
# Checksums see every change

A checksum that is equal means that the data is equal, as far as the hash function lets it: where it
does not collide on what is hashed, changing, adding or removing a row or a column changes the
digest. This rests on the two encodings that are hashed. A row is the concatenation of its cells,
each a prefix code of its own; a result set is its column names, each up to a NUL, and behind them
three numbers of fixed width.

The rows enter by a sum and a count, and the order in which they are folded is free. So a row that
changes can be taken to be the last one, and what is left is to see that a last step that differs
leaves another sum or another count.
-/

namespace SqlReplay

/-! ## The encoding of a row -/

/-- A string of a length that a machine has. -/
def Cell.Sized : Cell → Prop
  | bytes b => b.length < 2 ^ 64
  | _ => True

theorem toNat_toUInt64 {n : ℕ} (h : n < 2 ^ 64) : n.toUInt64.toNat = n := by
  show (UInt64.ofNat n).toNat = n
  rw [UInt64.toNat_ofNat', Nat.mod_eq_of_lt h]

/-- A cell cannot be mistaken for another, whatever follows it. -/
theorem Cell.prefixCode : PrefixCode {c | Sized c} encode := by
  have hu64 : PrefixCode Set.univ leU64 :=
    .of_length 8 (fun v _ ↦ length_leU64 v) leU64_injective.injOn
  intro a ha b hb x y h
  cases a with
  | null => cases b <;> first | rfl | cases h
  | bytes s =>
    cases b with
    | bytes t =>
      rw [encode, encode, List.cons_append, List.cons_append, List.append_assoc,
        List.append_assoc] at h
      obtain ⟨hlength, hrest⟩ := hu64.append_inj trivial trivial (List.cons.inj h).2
      have hst : s.length = t.length := by
        rw [← toNat_toUInt64 ha, hlength, toNat_toUInt64 hb]
      rw [(List.append_inj hrest hst).1]
    | _ => cases h
  | int v =>
    cases b with
    | int w =>
      obtain ⟨hvw, -⟩ := hu64.append_inj trivial trivial (List.cons.inj h).2
      obtain ⟨v⟩ := v
      obtain ⟨w⟩ := w
      obtain rfl : v = w := hvw
      rfl
    | _ => cases h
  | uint v =>
    cases b with
    | uint w =>
      obtain ⟨hvw, -⟩ := hu64.append_inj trivial trivial (List.cons.inj h).2
      rw [hvw]
    | _ => cases h
  | float v =>
    cases b with
    | float w =>
      obtain ⟨hvw, -⟩ := hu64.append_inj trivial trivial (List.cons.inj h).2
      obtain ⟨v⟩ := v
      obtain ⟨w⟩ := w
      obtain rfl : v = w := hvw
      rfl
    | _ => cases h

/-- No two rows are hashed as the same bytes. -/
theorem encodeRow_injOn : Set.InjOn encodeRow {r | ∀ c ∈ r, Cell.Sized c} := by
  refine Cell.prefixCode.flatMap_injOn fun c _ ↦ ?_
  cases c <;> exact List.cons_ne_nil _ _

/-! ## The final preimage -/

/-- The names up to their NULs, and three numbers of fixed width. -/
theorem finalPreimage_inj {columns columns' : List Bytes} (h : ∀ c ∈ columns, 0 ∉ c)
    (h' : ∀ c ∈ columns', 0 ∉ c) {sum sum' xor xor' rows rows' : UInt64}
    (heq : finalPreimage columns sum xor rows = finalPreimage columns' sum' xor' rows') :
    columns = columns' ∧ sum = sum' ∧ xor = xor' ∧ rows = rows' := by
  rw [finalPreimage, finalPreimage] at heq
  obtain ⟨heq, hrows⟩ := List.append_inj' heq (by rw [length_leU64, length_leU64])
  obtain ⟨heq, hxor⟩ := List.append_inj' heq (by rw [length_leU64, length_leU64])
  obtain ⟨heq, hsum⟩ := List.append_inj' heq (by rw [length_leU64, length_leU64])
  have hnames := (PrefixCode.terminated (0 : UInt8)).flatMap_injOn
    (fun t _ ↦ List.append_ne_nil_of_right_ne_nil t (List.cons_ne_nil 0 [])) h h' heq
  exact ⟨hnames, leU64_injective hsum, leU64_injective hxor, leU64_injective hrows⟩

/-! ## The digest of a result set -/

namespace ResultSet

variable (xxh3 : Bytes → UInt64) (set : ResultSet)

/-- A row as the hasher is given it. -/
def cells (row : List Value) : List Cell := row.map Value.cell

/-- The builder behind the columns and the rows of a result set. -/
def builder : ChecksumBuilder :=
  set.rows.foldl (fun b row ↦ b.addValues xxh3 row) (({} : ChecksumBuilder).setColumns set.columns)

def checksum : ResultChecksum := (set.builder xxh3).finish xxh3

/-- Names without NUL, and strings of a length that a machine has. -/
structure Valid : Prop where
  columns_spec : ∀ c ∈ set.columns, 0 ∉ c
  rows_spec : ∀ row ∈ set.rows, ∀ c ∈ cells row, c.Sized

/-- What is hashed for a result set. -/
def preimages : List Bytes :=
  finalPreimage (set.builder xxh3).columns (set.builder xxh3).sum (set.builder xxh3).xor
    (set.builder xxh3).rows.toUInt64 :: set.rows.map fun row ↦ encodeRow (cells row)

/-- One result set differs from another: in the cells of one row, by one row more or less, which may
be a copy of one that is there, or in its columns. -/
inductive Differs : ResultSet → ResultSet → Prop where
  | changed (columns : List Bytes) (before after : List (List Value)) {row row' : List Value}
      (h : cells row ≠ cells row') :
      Differs ⟨columns, before ++ row :: after⟩ ⟨columns, before ++ row' :: after⟩
  | added (columns : List Bytes) (before after : List (List Value)) (row : List Value) :
      Differs ⟨columns, before ++ after⟩ ⟨columns, before ++ row :: after⟩
  | removed (columns : List Bytes) (before after : List (List Value)) (row : List Value) :
      Differs ⟨columns, before ++ row :: after⟩ ⟨columns, before ++ after⟩
  | columns {a b : ResultSet} (h : a.columns ≠ b.columns) : Differs a b

end ResultSet

/-- The hash function does not collide on these texts. -/
def NoCollision (xxh3 : Bytes → UInt64) (texts : List Bytes) : Prop :=
  ∀ x ∈ texts, ∀ y ∈ texts, xxh3 x = xxh3 y → x = y

namespace ResultSet

variable (xxh3 : Bytes → UInt64)

theorem builder_columns (set : ResultSet) : (set.builder xxh3).columns = set.columns := by
  have hfold (b : ChecksumBuilder) (rows : List (List Value)) :
      (rows.foldl (fun b row ↦ b.addValues xxh3 row) b).columns = b.columns := by
    induction rows generalizing b with
    | nil => rfl
    | cons row rows ih => exact ih _
  rw [builder, hfold]
  exact rfl

/-- Any row can be taken to be the last one. -/
theorem builder_move_last (columns : List Bytes) (before after : List (List Value))
    (row : List Value) : builder xxh3 ⟨columns, before ++ row :: after⟩ =
      (builder xxh3 ⟨columns, before ++ after⟩).addValues xxh3 row := by
  have hperm : (before ++ row :: after).Perm ((before ++ after) ++ [row]) :=
    List.perm_middle.trans (List.perm_append_singleton row (before ++ after)).symm
  rw [builder, hperm.foldl_eq, List.foldl_append]
  rfl

theorem addValues_sum (b : ChecksumBuilder) (row : List Value) :
    (b.addValues xxh3 row).sum = b.sum + xxh3 (encodeRow (cells row)) := by
  show b.sum + xxh3 ((row.map Value.cell).foldl RowHasher.add .new).fed = _
  rw [foldl_add_fed]
  rfl

/-- One row more is another count, also where the count wraps. -/
theorem succ_toUInt64_ne (n : ℕ) : (n + 1).toUInt64 ≠ n.toUInt64 := by
  intro h
  have hmod := congrArg UInt64.toNat h
  change (UInt64.ofNat (n + 1)).toNat = (UInt64.ofNat n).toNat at hmod
  rw [UInt64.toNat_ofNat', UInt64.toNat_ofNat'] at hmod
  omega

variable {xxh3}

/-- What is hashed in the end is another text. -/
theorem finalPreimage_ne {a b : ResultSet} (ha : a.Valid) (hb : b.Valid) (h : Differs a b)
    (hno : NoCollision xxh3 (a.preimages xxh3 ++ b.preimages xxh3)) :
    finalPreimage (a.builder xxh3).columns (a.builder xxh3).sum (a.builder xxh3).xor
        (a.builder xxh3).rows.toUInt64 ≠
      finalPreimage (b.builder xxh3).columns (b.builder xxh3).sum (b.builder xxh3).xor
        (b.builder xxh3).rows.toUInt64 := by
  intro heq
  rw [builder_columns, builder_columns] at heq
  obtain ⟨hcolumns, hsum, -, hrows⟩ := finalPreimage_inj ha.columns_spec hb.columns_spec heq
  cases h with
  | changed columns before after hcells =>
    rename_i row row'
    rw [builder_move_last, builder_move_last, addValues_sum, addValues_sum,
      UInt64.add_right_inj] at hsum
    -- equal hashes are hashes of equal rows
    have hencode : encodeRow (cells row) = encodeRow (cells row') :=
      hno _ (List.mem_append_left _ (List.mem_cons_of_mem _ (List.mem_map.mpr
          ⟨row, List.mem_append_right _ List.mem_cons_self, rfl⟩)))
        _ (List.mem_append_right _ (List.mem_cons_of_mem _ (List.mem_map.mpr
          ⟨row', List.mem_append_right _ List.mem_cons_self, rfl⟩))) hsum
    exact hcells (encodeRow_injOn
      (ha.rows_spec row (List.mem_append_right _ List.mem_cons_self))
      (hb.rows_spec row' (List.mem_append_right _ List.mem_cons_self)) hencode)
  | added columns before after row =>
    rw [builder_move_last] at hrows
    exact succ_toUInt64_ne _ hrows.symm
  | removed columns before after row =>
    rw [builder_move_last] at hrows
    exact succ_toUInt64_ne _ hrows
  | columns hne => exact hne hcolumns

/-- Result sets that differ have different digests. -/
theorem digest_ne {a b : ResultSet} (ha : a.Valid) (hb : b.Valid) (h : Differs a b)
    (hno : NoCollision xxh3 (a.preimages xxh3 ++ b.preimages xxh3)) :
    (a.checksum xxh3).digest ≠ (b.checksum xxh3).digest := fun heq ↦
  finalPreimage_ne ha hb h hno (hno _ (List.mem_append_left _ List.mem_cons_self) _
    (List.mem_append_right _ List.mem_cons_self) heq)

end ResultSet

/-- Result checksums are sensitive: rows that differ are hashed as different bytes, so are result
sets that differ in their names, sum, exclusive or or count, and the digests of result sets that
differ in one row or in the columns are different. -/
theorem checksum_sensitive (xxh3 : Bytes → UInt64) :
    (∀ r r' : List Cell, (∀ c ∈ r, c.Sized) → (∀ c ∈ r', c.Sized) →
      encodeRow r = encodeRow r' → r = r') ∧
    (∀ columns columns' : List Bytes, (∀ c ∈ columns, 0 ∉ c) → (∀ c ∈ columns', 0 ∉ c) →
      ∀ sum sum' xor xor' rows rows' : UInt64,
        finalPreimage columns sum xor rows = finalPreimage columns' sum' xor' rows' →
          columns = columns' ∧ sum = sum' ∧ xor = xor' ∧ rows = rows') ∧
    ∀ a b : ResultSet, a.Valid → b.Valid → ResultSet.Differs a b →
      NoCollision xxh3 (a.preimages xxh3 ++ b.preimages xxh3) →
        (a.checksum xxh3).digest ≠ (b.checksum xxh3).digest :=
  ⟨fun _ _ hr hr' h ↦ encodeRow_injOn hr hr' h,
    fun _ _ h h' _ _ _ _ _ _ heq ↦ finalPreimage_inj h h' heq,
    fun _ _ ha hb h hno ↦ ResultSet.digest_ne ha hb h hno⟩

theorem sampleSet_valid {c : Bytes} (h : c.length < 2 ^ 64) : (sampleSet [c]).Valid where
  columns_spec := List.forall_mem_singleton.mpr (by decide)
  rows_spec := List.forall_mem_singleton.mpr (List.forall_mem_singleton.mpr h)

theorem checksum_sensitive_sample :
    ([Cell.null] = [Cell.null]) ∧
    ([ascii "v"] = [ascii "v"] ∧ (1 : UInt64) = 1 ∧ (2 : UInt64) = 2 ∧ (3 : UInt64) = 3) ∧
    ((sampleSet [ascii "1"]).checksum sampleXxh3).digest ≠
      ((sampleSet [ascii "2"]).checksum sampleXxh3).digest := by
  have h := checksum_sensitive sampleXxh3
  refine ⟨h.1 _ _ (by simp [Cell.Sized]) (by simp [Cell.Sized]) rfl,
    h.2.1 _ _ (List.forall_mem_singleton.mpr (by decide))
      (List.forall_mem_singleton.mpr (by decide)) _ _ _ _ _ _ rfl,
    h.2.2 _ _ (sampleSet_valid (by decide)) (sampleSet_valid (by decide))
      (.changed _ [] [] (by decide)) ?_⟩
  unfold NoCollision
  decide

end SqlReplay
