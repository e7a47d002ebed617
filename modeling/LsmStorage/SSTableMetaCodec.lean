import LsmStorage.SSTable

/-! # The meta file of a table as a code

`deserialize` checks that the fixed parts are there and takes what it finds of the others: a
root block that is cut short is skipped, and the macro entries end with the bytes. Offset and
size of the root block are not stored at all. -/
namespace SSTableMetaCodec

open ByteCodec SSTable ObSSTableBasicMeta

section Truncation

def rootSize (b : Bytes) : ℤ := ofLEInt (slice b ObSSTableBasicMeta.size 8)

theorem deserializeMacros_accepts_iff (b : Bytes) (m : ObSSTableMeta) :
    (m.deserializeMacros b).1 = 0 ↔ 8 ≤ b.length := by
  unfold ObSSTableMeta.deserializeMacros
  split
  · next hshort => simpa using hshort
  · next hlong => simpa using hlong

/-- Whether `deserialize` succeeds depends on the length and on the root size only. -/
theorem accepts_iff (b : Bytes) (m : ObSSTableMeta) :
    (m.deserialize b).1 = 0 ↔ 112 ≤ b.length ∧
      if 0 < rootSize b ∧ rootSize b ≤ b.length - 112 then 120 + rootSize b ≤ b.length
      else 120 ≤ b.length := by
  have hsize : ofLEInt ((b.drop ObSSTableBasicMeta.size).take 8) = rootSize b := rfl
  have hbasic : ObSSTableBasicMeta.size = 104 := rfl
  unfold ObSSTableMeta.deserialize
  split
  · next hshort => exact iff_of_false (by simp) (by omega)
  unfold ObSSTableMeta.deserializeRoot
  split
  · next hshort =>
    rw [List.length_drop] at hshort
    exact iff_of_false (by simp) (by omega)
  next hlong hroot =>
  dsimp only
  rw [List.length_drop] at hroot
  rw [hsize, List.length_drop, List.length_drop]
  split
  · next hread =>
    rw [deserializeMacros_accepts_iff, List.length_drop, List.length_drop, List.length_drop,
      if_pos (by omega)]
    omega
  · next hread =>
    rw [deserializeMacros_accepts_iff, List.length_drop, List.length_drop, if_neg (by omega)]
    omega

theorem length_serialize (m : ObSSTableMeta) :
    m.serialize.length = 120 + m.rootBlockData.length + 24 * m.macroInfo.macroIds.length := by
  have hbasic : m.basicMeta.image.length = 104 := m.basicMeta.length_image
  simp only [ObSSTableMeta.serialize, List.length_append, hbasic, length_toLEInt,
    List.length_flatMap, length_entryImage, List.map_const', List.length_range,
    List.sum_replicate_nat]
  omega

theorem rootSize_take {m : ObSSTableMeta} (hroot : m.rootBlockData.length < 2 ^ 63) {n : ℕ}
    (hn : 112 ≤ n) : rootSize (m.serialize.take n) = m.rootBlockData.length := by
  have hbasic := m.basicMeta.length_image
  rw [rootSize, slice_take (by rw [ObSSTableBasicMeta.size]; omega), slice, ObSSTableMeta.serialize,
    List.drop_left' hbasic, List.take_left' (length_toLEInt 8 _), ofLEInt_toLEInt_natCast hroot]

def RejectsTruncated (m : ObSSTableMeta) : Prop :=
  ∀ b, b <+: m.serialize → b ≠ m.serialize → (({} : ObSSTableMeta).deserialize b).1 ≠ 0

theorem rejectsTruncated_iff_take (m : ObSSTableMeta) :
    RejectsTruncated m ↔ ∀ n < m.serialize.length,
      (({} : ObSSTableMeta).deserialize (m.serialize.take n)).1 ≠ 0 := by
  constructor
  · intro h n hn
    refine h _ (List.take_prefix n _) fun heq => ?_
    have hlen := congrArg List.length heq
    rw [List.length_take] at hlen
    omega
  · intro h b hpre hne
    rw [List.prefix_iff_eq_take.mp hpre]
    exact h b.length (lt_of_le_of_ne hpre.length_le fun heq => hne (hpre.eq_of_length heq))

theorem accepts_take_iff {m : ObSSTableMeta} (hroot : m.rootBlockData.length < 2 ^ 63) {n : ℕ}
    (hn : n < m.serialize.length) :
    (({} : ObSSTableMeta).deserialize (m.serialize.take n)).1 = 0 ↔ 112 ≤ n ∧
      if 0 < m.rootBlockData.length ∧ 112 + m.rootBlockData.length ≤ n then
        120 + m.rootBlockData.length ≤ n
      else 120 ≤ n := by
  rw [accepts_iff, List.length_take, Nat.min_eq_left hn.le]
  refine and_congr_right fun hmin => ?_
  rw [rootSize_take hroot hmin]
  split <;> split <;> omega

/-- Only a meta without macro blocks and with a root block of at most 8 bytes is safe from
truncation: a cut among the macro entries ends the loop over them, and 8 bytes of a longer root
block are taken for the number of entries. -/
theorem rejects_truncated_iff (m : ObSSTableMeta) (hroot : m.rootBlockData.length < 2 ^ 63) :
    RejectsTruncated m ↔ m.macroInfo.macroIds = [] ∧ m.rootBlockData.length ≤ 8 := by
  have hlen := length_serialize m
  rw [rejectsTruncated_iff_take]
  constructor
  · intro h
    have hentries : m.macroInfo.macroIds.length = 0 := by
      by_contra hne
      refine h (120 + m.rootBlockData.length) (by omega) ?_
      rw [accepts_take_iff hroot (by omega)]
      split <;> omega
    refine ⟨List.length_eq_zero_iff.mp hentries, ?_⟩
    by_contra hlong
    refine h 120 (by omega) ?_
    rw [accepts_take_iff hroot (by omega), if_neg (by omega)]
    omega
  · rintro ⟨hnil, hsmall⟩ n hn haccept
    rw [hnil, List.length_nil] at hlen
    obtain ⟨hmin, haccept⟩ := (accepts_take_iff hroot hn).mp haccept
    split at haccept <;> omega

theorem rejects_truncated_iff_example : RejectsTruncated { rootBlockData := [1, 2, 3] } :=
  (rejects_truncated_iff { rootBlockData := [1, 2, 3] } (by decide)).mpr ⟨rfl, by decide⟩

/-- One macro block, with the last byte of its entry cut off: the meta is accepted, has a block
by its count and none in its lists. -/
theorem truncated_entry_accepted :
    let m := (({} : ObSSTableMeta).init 2 1 1 5).2.addMacroBlock 7 0 10 3 1
    let r := ({} : ObSSTableMeta).deserialize (m.serialize.take 143)
    m.serialize.length = 144 ∧ r.1 = 0 ∧ r.2.basicMeta.dataMacroBlockCount = 1 ∧
      r.2.macroInfo.macroIds = [] ∧ ¬ RejectsTruncated m := by
  intro m r
  have hret : r.1 = 0 := by decide +kernel
  refine ⟨by decide +kernel, hret, by decide +kernel, by decide +kernel, fun h => ?_⟩
  exact h (m.serialize.take 143) (List.take_prefix 143 _) (by decide +kernel) hret

end Truncation

section RoundTrip

def IsInt64 (n : ℤ) : Prop := -2 ^ 63 ≤ n ∧ n < 2 ^ 63

instance : DecidablePred IsInt64 := fun n =>
  inferInstanceAs (Decidable (-2 ^ 63 ≤ n ∧ n < 2 ^ 63))

theorem ofLEInt_toLEInt_of_isInt64 {n : ℤ} (h : IsInt64 n) : ofLEInt (toLEInt 8 n) = n := by
  obtain ⟨hlo, hhi⟩ := h
  apply ofLEInt_toLEInt <;> omega

/-- No counter has overflowed, and what the source holds in an `int64_t` is one. -/
structure InRange (m : ObSSTableMeta) : Prop where
  longs : ∀ n ∈ m.basicMeta.longs, IsInt64 n
  macros : ∀ n ∈ m.macroInfo.macroIds ++ m.macroInfo.macroOffsets ++ m.macroInfo.macroSizes,
    IsInt64 n
  root : m.rootBlockData.length < 2 ^ 63

inductive MetaCall where
  | addMacroBlock (macroSeq macroOffset macroSize rowCount microBlockCount : ℤ)
  | setRootIndexBlock (data : Bytes)

def MetaCall.apply (m : ObSSTableMeta) : MetaCall → ObSSTableMeta
  | .addMacroBlock macroSeq macroOffset macroSize rowCount microBlockCount =>
    m.addMacroBlock macroSeq macroOffset macroSize rowCount microBlockCount
  | .setRootIndexBlock data => m.setRootIndexBlock data

def built (columnCount rowkeyColumnCount schemaVersion snapshotVersion : ℤ)
    (calls : List MetaCall) : ObSSTableMeta :=
  calls.foldl MetaCall.apply
    (({} : ObSSTableMeta).init columnCount rowkeyColumnCount schemaVersion snapshotVersion).2

structure WellBuilt (m : ObSSTableMeta) : Prop where
  entries : ∃ l, m.macroInfo = .ofEntries l ∧ m.basicMeta.dataMacroBlockCount = l.length
  dataIndexTreeHeight : m.basicMeta.dataIndexTreeHeight = 1
  rowStoreType : m.basicMeta.rowStoreType = 0
  rootBlockOffset : m.rootBlockOffset = 0
  rootBlockSize : m.rootBlockSize = m.rootBlockData.length

theorem wellBuilt_apply {m : ObSSTableMeta} (h : WellBuilt m) (c : MetaCall) :
    WellBuilt (c.apply m) := by
  cases c with
  | addMacroBlock macroSeq macroOffset macroSize rowCount microBlockCount =>
    obtain ⟨l, hinfo, hcount⟩ := h.entries
    refine ⟨⟨l ++ [(macroSeq, macroOffset, macroSize)], ?_, ?_⟩, h.dataIndexTreeHeight,
      h.rowStoreType, h.rootBlockOffset, h.rootBlockSize⟩
    · rw [← ObSSTableMacroInfo.ofEntries_pushBack, ← hinfo]
      rfl
    · rw [List.length_append, List.length_singleton, Nat.cast_add, ← hcount]
      rfl
  | setRootIndexBlock data =>
    exact ⟨h.entries, h.dataIndexTreeHeight, h.rowStoreType, h.rootBlockOffset, rfl⟩

theorem wellBuilt_built (columnCount rowkeyColumnCount schemaVersion snapshotVersion : ℤ)
    (calls : List MetaCall) :
    WellBuilt (built columnCount rowkeyColumnCount schemaVersion snapshotVersion calls) := by
  have hinit : WellBuilt (({} : ObSSTableMeta).init columnCount rowkeyColumnCount schemaVersion
      snapshotVersion).2 := ⟨⟨[], rfl, rfl⟩, rfl, rfl, rfl, rfl⟩
  unfold built
  generalize (({} : ObSSTableMeta).init _ _ _ _).2 = m at hinit ⊢
  induction calls generalizing m with
  | nil => exact hinit
  | cons c calls ih => exact ih _ (wellBuilt_apply hinit c)

theorem long_image {m : ObSSTableBasicMeta} (h : ∀ n ∈ m.longs, IsInt64 n) {i : ℕ} {n : ℤ}
    (hn : m.longs[i]? = some n) : long m.image i = n := by
  rw [ObSSTableBasicMeta.long, ObSSTableBasicMeta.image, List.append_assoc, List.append_assoc,
    List.append_assoc, slice_flatMap (length_toLEInt 8) _ hn]
  exact ofLEInt_toLEInt_of_isInt64 (h n (List.mem_of_getElem? hn))

theorem slice_image (m : ObSSTableBasicMeta) :
    slice m.image 96 2 = toLEInt 2 m.dataIndexTreeHeight ∧
      slice m.image 98 1 = toLE 1 m.rowStoreType ∧
      slice m.image 99 1 = toLE 1 m.containUncommittedRow.toNat := by
  have hlongs : (m.longs.flatMap (toLEInt 8)).length = 96 := by
    simp [longs]
  have hheight := slice_middle (m.longs.flatMap (toLEInt 8)) (toLEInt 2 m.dataIndexTreeHeight)
    (toLE 1 m.rowStoreType ++ (toLE 1 m.containUncommittedRow.toNat ++ [0, 0, 0, 0]))
  have htype := slice_middle (m.longs.flatMap (toLEInt 8) ++ toLEInt 2 m.dataIndexTreeHeight)
    (toLE 1 m.rowStoreType) (toLE 1 m.containUncommittedRow.toNat ++ [0, 0, 0, 0])
  have hflag := slice_middle (m.longs.flatMap (toLEInt 8) ++ toLEInt 2 m.dataIndexTreeHeight ++
    toLE 1 m.rowStoreType) (toLE 1 m.containUncommittedRow.toNat) [0, 0, 0, 0]
  simp only [List.length_append, hlongs, length_toLEInt, length_toLE,
    List.append_assoc] at hheight htype hflag
  simp only [ObSSTableBasicMeta.image, List.append_assoc]
  exact ⟨hheight, htype, hflag⟩

theorem ofImage_image {m : ObSSTableBasicMeta} (h : ∀ n ∈ m.longs, IsInt64 n)
    (hheight : m.dataIndexTreeHeight = 1) (htype : m.rowStoreType = 0) :
    ofImage m.image = m := by
  have hlong (i : ℕ) (n : ℤ) (hn : m.longs[i]? = some n) :
      long m.image i = n := long_image h hn
  obtain ⟨hs₁, hs₂, hs₃⟩ := slice_image m
  have hh : ofLEInt (toLEInt 2 m.dataIndexTreeHeight) = m.dataIndexTreeHeight := by
    rw [hheight]
    rfl
  have ht : ofLE (toLE 1 m.rowStoreType) = m.rowStoreType := by
    rw [htype]
    rfl
  have hf : decide (ofLE (toLE 1 m.containUncommittedRow.toNat) ≠ 0) =
      m.containUncommittedRow := by
    cases m.containUncommittedRow <;> rfl
  rw [ofImage, hs₁, hs₂, hs₃, hh, ht, hf, hlong 0 m.rowCount rfl,
    hlong 1 m.occupySize rfl, hlong 2 m.originalSize rfl, hlong 3 m.dataChecksum rfl,
    hlong 4 m.rowkeyColumnCount rfl, hlong 5 m.columnCnt rfl, hlong 6 m.dataMacroBlockCount rfl,
    hlong 7 m.dataMicroBlockCount rfl, hlong 8 m.schemaVersion rfl,
    hlong 9 m.createSnapshotVersion rfl, hlong 10 m.upperTransVersion rfl,
    hlong 11 m.maxMergedTransVersion rfl]

theorem map_storedEntry {l : List MacroEntry}
    (h : ∀ e ∈ l, IsInt64 e.1 ∧ IsInt64 e.2.1 ∧ IsInt64 e.2.2) : l.map storedEntry = l := by
  have hid : ∀ e ∈ l, storedEntry e = id e := by
    intro e he
    obtain ⟨hid, hoffset, hsize⟩ := h e he
    rw [storedEntry, ofLEInt_toLEInt_of_isInt64 hid, ofLEInt_toLEInt_of_isInt64 hoffset,
      ofLEInt_toLEInt_of_isInt64 hsize]
    rfl
  rw [List.map_congr_left hid, List.map_id]

theorem deserialize_serialize_of_wellBuilt {m : ObSSTableMeta} (h : WellBuilt m)
    (hrange : InRange m) :
    ({} : ObSSTableMeta).deserialize m.serialize = (0, { m with rootBlockSize := 0 }) := by
  obtain ⟨l, hinfo, hcount⟩ := h.entries
  have hl : l.length < 2 ^ 63 := by
    have hcounter : IsInt64 m.basicMeta.dataMacroBlockCount :=
      hrange.longs _ (by simp [longs])
    have hlt := hcounter.2
    rw [hcount] at hlt
    omega
  have hstored : l.map storedEntry = l := by
    apply map_storedEntry
    intro e he
    have hmacros := hrange.macros
    rw [hinfo] at hmacros
    refine ⟨hmacros _ ?_, hmacros _ ?_, hmacros _ ?_⟩
    · exact List.mem_append_left _ (List.mem_append_left _ (List.mem_map_of_mem he))
    · exact List.mem_append_left _ (List.mem_append_right _ (List.mem_map_of_mem he))
    · exact List.mem_append_right _ (List.mem_map_of_mem he)
  rw [deserialize_serialize_eq hinfo hrange.root hl, hstored, ← hinfo,
    ofImage_image hrange.longs h.dataIndexTreeHeight h.rowStoreType, ← hcount, ← h.rootBlockOffset]

end RoundTrip

/-- A meta that was built up by its calls comes back from its bytes exactly when it has no root
block; of a root block the size is lost. -/
theorem meta_round_trip_iff (columnCount rowkeyColumnCount schemaVersion snapshotVersion : ℤ)
    (calls : List MetaCall)
    (hrange : InRange
      (built columnCount rowkeyColumnCount schemaVersion snapshotVersion calls)) :
    let m := built columnCount rowkeyColumnCount schemaVersion snapshotVersion calls
    ({} : ObSSTableMeta).deserialize m.serialize = (0, { m with rootBlockSize := 0 }) ∧
      (({} : ObSSTableMeta).deserialize m.serialize = (0, m) ↔ m.rootBlockData = []) := by
  intro m
  have hbuilt : WellBuilt m :=
    wellBuilt_built columnCount rowkeyColumnCount schemaVersion snapshotVersion calls
  have hback := deserialize_serialize_of_wellBuilt hbuilt hrange
  refine ⟨hback, ?_⟩
  rw [hback, ← List.length_eq_zero_iff, ← Int.natCast_eq_zero, ← hbuilt.rootBlockSize]
  constructor
  · intro heq
    exact (congrArg (fun r : ℤ × ObSSTableMeta => r.2.rootBlockSize) heq).symm
  · intro hzero
    rw [← hzero]

theorem meta_round_trip_iff_example :
    let m := built 2 1 1 5 [.addMacroBlock 7 0 10 3 1, .addMacroBlock 8 10 6 1 1]
    ({} : ObSSTableMeta).deserialize m.serialize = (0, m) :=
  (meta_round_trip_iff 2 1 1 5 [.addMacroBlock 7 0 10 3 1, .addMacroBlock 8 10 6 1 1]
    ⟨by decide, by decide, by decide⟩).2.mpr rfl

/-- A root block of three bytes comes back with its bytes and with size 0. -/
theorem root_block_size_lost :
    let m := built 2 1 1 5 [.setRootIndexBlock [1, 2, 3], .addMacroBlock 7 0 10 3 1]
    let r := ({} : ObSSTableMeta).deserialize m.serialize
    m.rootBlockSize = 3 ∧ r.1 = 0 ∧ r.2.rootBlockData = [1, 2, 3] ∧ r.2.rootBlockSize = 0 ∧
      r ≠ (0, m) := by
  intro m r
  have hsize : m.rootBlockSize = 3 := rfl
  have hlost : r.2.rootBlockSize = 0 := by decide +kernel
  refine ⟨hsize, by decide +kernel, by decide +kernel, hlost, fun heq => ?_⟩
  rw [heq, hsize] at hlost
  cases hlost

end SSTableMetaCodec
