import CalcKernel.Profile.Codec

/-!
# The outer format

Tagged fields between a header and a digest.  The fields are read in ascending
order of their tags, so those found for a list of required tags are those written
under these tags.
-/

namespace CalcKernel

open Lib

theorem ofBigEndian_u32 {bytes : List UInt8} (hlen : bytes.length = 4) {x : UInt32} :
    UInt32.ofNat (ofBigEndian bytes) = x ↔ bytes = u32Bytes x := by
  constructor
  · rintro rfl
    have hlt := ofBigEndian_lt bytes
    rw [hlen] at hlt
    rw [u32Bytes, UInt32.toNat_ofNat', Nat.mod_eq_of_lt (by simpa using hlt), ← hlen,
      bigEndian_ofBigEndian]
  · rintro rfl
    have hlt := x.toNat_lt
    rw [u32Bytes, ofBigEndian_bigEndian, Nat.mod_eq_of_lt (by omega), UInt32.ofNat_toNat]

/-! ## Fields -/

/-- A field that may follow a field with the previous tag. -/
def OuterField.Follows (requiredTags : List UInt16) (previous : UInt16) (field : OuterField) :
    Prop :=
  previous < field.1 ∧ field.1 ∈ requiredTags ∧ field.2.length ≤ 536870912

theorem reads_field (requiredTags : List UInt16) (previous : UInt16) :
    Reads (readField requiredTags previous) fieldBytes
      (OuterField.Follows requiredTags previous) := by
  have hmax : ckProfileMaxBytes.toNat = 536870912 := rfl
  have hpayload : ∀ (tag : UInt16) (n : Nat), Reads (do
      let payload ← Reader.exact n CkProfileError.truncated
      if tag ∉ requiredTags then Lib.Reader.fail (.unknownField "outer" tag)
      else return (tag, payload)) (fun field : OuterField ↦ field.2)
      (fun field ↦ field.2.length = n ∧ tag ∈ requiredTags ∧ field.1 = tag) := by
    intro tag n
    have h := (Reads.exact n CkProfileError.truncated).bind (fun field : OuterField ↦ field.2)
      (fun payload ↦ (Reads.pure (tag, payload)).ite (c := tag ∉ requiredTags)
        (e := .unknownField "outer" tag)) (by grind)
    apply h.congr
    · rintro ⟨tag', payload⟩
      simp
    · simp
  have h := reads_u16.bind (fun field : OuterField ↦ field.1) (fun tag ↦
    (reads_u32.bind (fun field : OuterField ↦ UInt32.ofNat field.2.length) (fun length ↦
    (hpayload tag length.toNat).ite (c := ckProfileMaxBytes.toNat < length.toNat)
      (e := .resourceLimit "outer field bytes"))
      (by
        rintro length field ⟨_, hlen, _⟩
        rw [hlen, UInt32.ofNat_toNat])).ite (c := tag ≤ previous)
      (e := .nonCanonicalOrder "outer fields")) (by grind)
  have hsize : ∀ field : OuterField, field.2.length ≤ 536870912 →
      (UInt32.ofNat field.2.length).toNat = field.2.length := by
    intro field hfield
    rw [UInt32.toNat_ofNat']
    omega
  apply h.congr
  · intro field
    rw [hmax]
    constructor
    · rintro ⟨hprevious, hrequired, hlen⟩
      rw [hsize field hlen]
      refine ⟨trivial, UInt16.not_le.mpr hprevious, trivial, by omega, rfl, hrequired, rfl⟩
    · rintro ⟨_, hprevious, _, hlimit, hlen, hrequired, _⟩
      refine ⟨UInt16.not_le.mp hprevious, hrequired, by omega⟩
  · rintro field ⟨_, hprevious, _, hlimit, hlen, hrequired, _⟩
    rw [hmax] at hlimit
    rw [u32Bytes, hsize field (by omega)]
    simp [fieldBytes]

theorem fieldBytes_length (field : OuterField) :
    (fieldBytes field).length = 6 + field.2.length := by
  simp [fieldBytes, u16Bytes]
  omega

theorem flatMap_fieldBytes_eq_nil {fields : List OuterField} :
    [] = fields.flatMap fieldBytes ↔ fields = [] := by
  cases fields with
  | nil => simp
  | cons field fields =>
      have hlen := fieldBytes_length field
      simp only [List.flatMap_cons, reduceCtorEq, iff_false]
      intro h
      have := congrArg List.length h
      rw [List.length_append, hlen, List.length_nil] at this
      omega

/-- The fields that may follow a previous tag, in ascending order. -/
def FieldsFollow (requiredTags : List UInt16) : UInt16 → List OuterField → Prop
  | _, [] => True
  | previous, field :: fields =>
      OuterField.Follows requiredTags previous field ∧ FieldsFollow requiredTags field.1 fields

theorem parseFields_eq_ok {requiredTags : List UInt16} {rounds : Nat} {previous : UInt16}
    {bytes : List UInt8} {fields : List OuterField} (hrounds : bytes.length ≤ rounds) :
    parseFields requiredTags rounds previous bytes = .ok fields ↔
      FieldsFollow requiredTags previous fields ∧ bytes = fields.flatMap fieldBytes := by
  induction rounds generalizing previous bytes fields with
  | zero =>
      obtain rfl := List.length_eq_zero_iff.mp (Nat.le_zero.mp hrounds)
      rw [flatMap_fieldBytes_eq_nil]
      cases fields <;> simp [parseFields, FieldsFollow]
  | succ rounds ih =>
      cases bytes with
      | nil =>
          rw [flatMap_fieldBytes_eq_nil]
          cases fields <;> simp [parseFields, FieldsFollow]
      | cons b bytes =>
          simp only [parseFields]
          constructor
          · intro h
            obtain ⟨⟨field, rest⟩, hread, h⟩ := bind_eq_ok.mp h
            obtain ⟨fields', hparse, h⟩ := bind_eq_ok.mp h
            cases pure_eq_ok.mp h
            obtain ⟨hfield, hbytes⟩ := (reads_field requiredTags previous).sound hread
            have hlen := congrArg List.length hbytes
            rw [List.length_append, fieldBytes_length] at hlen
            have hrest : rest.length ≤ rounds := by omega
            obtain ⟨hfields, rfl⟩ := (ih hrest).mp hparse
            exact ⟨⟨hfield, hfields⟩, hbytes⟩
          · rintro ⟨hfields, hbytes⟩
            cases fields with
            | nil => cases hbytes
            | cons field fields =>
                rw [hbytes] at hrounds ⊢
                rw [List.flatMap_cons, List.length_append, fieldBytes_length] at hrounds
                have hrest : (fields.flatMap fieldBytes).length ≤ rounds := by omega
                apply bind_eq_ok.mpr
                refine ⟨(field, fields.flatMap fieldBytes),
                  (reads_field requiredTags previous).read hfields.1 _, ?_⟩
                apply bind_eq_ok.mpr
                exact ⟨fields, (ih hrest).mpr ⟨hfields.2, rfl⟩, rfl⟩

theorem fieldsFollow_iff {requiredTags : List UInt16} {previous : UInt16}
    {fields : List OuterField} : FieldsFollow requiredTags previous fields ↔
      (previous :: fields.map (·.1)).IsChain (· < ·) ∧
        (∀ field ∈ fields, field.1 ∈ requiredTags) ∧
        ∀ field ∈ fields, field.2.length ≤ 536870912 := by
  induction fields generalizing previous with
  | nil => simp [FieldsFollow]
  | cons field fields ih =>
      rw [FieldsFollow, ih, OuterField.Follows, List.map_cons, List.isChain_cons_cons]
      simp only [List.forall_mem_cons]
      tauto

/-- The fields of ascending tags, in the order of these tags. -/
theorem orderFields_tags {fields : List OuterField}
    (hfields : (fields.map (·.1)).Pairwise (· < ·)) :
    orderFields fields (fields.map (·.1)) = .ok (fields.map (·.2)) := by
  apply mapM_of_forall₂
  rw [List.forall₂_map_left_iff, List.forall₂_map_right_iff, List.forall₂_same]
  intro field hfield
  have hfind : fields.find? (·.1 = field.1) = some field :=
    find?_of_mem (fun field : OuterField ↦ field.1) hfields.nodup hfield
  rw [hfind]

/-- The payloads found for the required tags are those of the fields with these tags, once every
field is required and the tags ascend. -/
theorem orderFields_eq_ok {requiredTags : List UInt16} {fields : List OuterField}
    {payloads : List (List UInt8)} (hrequired : requiredTags.Pairwise (· < ·))
    (hfields : FieldsFollow requiredTags 0 fields) :
    orderFields fields requiredTags = .ok payloads ↔
      payloads.length = requiredTags.length ∧ fields = requiredTags.zip payloads := by
  obtain ⟨hchain, hmem, _⟩ := fieldsFollow_iff.mp hfields
  have htags : (fields.map (·.1)).Pairwise (· < ·) :=
    (List.isChain_iff_pairwise.mp hchain).tail
  constructor
  · intro h
    have hfound := mapM_eq_ok h
    have hsame : fields.map (·.1) = requiredTags := by
      apply htags.eq_of_mem_iff hrequired
      intro tag
      constructor
      · intro htag
        obtain ⟨field, hfield, rfl⟩ := List.mem_map.mp htag
        exact hmem field hfield
      · intro htag
        obtain ⟨payload, _, hpayload⟩ := forall₂_mem_left hfound htag
        split at hpayload
        · rename_i field hfind
          have hkey : field.1 = tag := by simpa using List.find?_some hfind
          exact List.mem_map.mpr ⟨field, List.mem_of_find?_eq_some hfind, hkey⟩
        · cases hpayload
    subst hsame
    rw [orderFields_tags htags] at h
    cases h
    exact ⟨by simp, List.zip_of_prod rfl rfl⟩
  · rintro ⟨hlen, rfl⟩
    have hsame : (requiredTags.zip payloads).map (·.1) = requiredTags :=
      List.map_fst_zip (by omega)
    have hpayloads : (requiredTags.zip payloads).map (·.2) = payloads :=
      List.map_snd_zip (by omega)
    have h := orderFields_tags htags
    rw [hsame, hpayloads] at h
    exact h

/-! ## Header and digest -/

theorem magic_length : shardMagic.length = 8 ∧ profileMagic.length = 8 := by
  decide

section Sha

variable (sha : List UInt8 → Digest)

def outerBody (magic : List UInt8) (fields : List OuterField) : List UInt8 :=
  magic ++ u32Bytes ckProfileFormatSchema ++ fields.flatMap fieldBytes

theorem pushField_eq_ok (field : OuterField) (bytes : List UInt8) :
    pushField field = .ok bytes ↔ field.2.length < 2 ^ 32 ∧ bytes = fieldBytes field := by
  unfold pushField
  split
  · rename_i h
    simp only [reduceCtorEq, false_iff, not_and]
    omega
  · rename_i h
    have hlen : field.2.length < 2 ^ 32 := by omega
    simp only [Except.ok.injEq, eq_comm (a := bytes), hlen, true_and]

theorem encodeOuter_eq_ok {magic domain bytes : List UInt8} {fields : List OuterField} :
    encodeOuter sha magic domain fields = .ok bytes ↔
      (∀ field ∈ fields, field.2.length < 2 ^ 32) ∧ bytes.length ≤ 536870912 ∧
        bytes = outerBody magic fields ++ (sha (domain ++ outerBody magic fields)).toList := by
  have hmax : ckProfileMaxBytes.toNat = 536870912 := rfl
  unfold encodeOuter
  rw [bind_eq_ok, hmax]
  constructor
  · rintro ⟨pushed, hpushed, h⟩
    obtain ⟨hfields, rfl⟩ := (mapM_eq_ok_iff pushField_eq_ok).mp hpushed
    dsimp only at h
    split_ifs at h with hlimit
    cases pure_eq_ok.mp h
    exact ⟨hfields, by omega, rfl⟩
  · rintro ⟨hfields, hlimit, rfl⟩
    refine ⟨_, (mapM_eq_ok_iff pushField_eq_ok).mpr ⟨hfields, rfl⟩, ?_⟩
    exact if_neg (not_lt.mpr hlimit)

/-- The four parts of the outer format. -/
theorem outer_parts {magic schema content digest : List UInt8} (hmagic : magic.length = 8)
    (hschema : schema.length = 4) (hdigest : digest.length = 32) {bytes : List UInt8} :
    bytes = magic ++ schema ++ content ++ digest ↔ 44 ≤ bytes.length ∧ bytes.take 8 = magic ∧
      (bytes.drop 8).take 4 = schema ∧ (bytes.take (bytes.length - 32)).drop 12 = content ∧
      bytes.drop (bytes.length - 32) = digest := by
  constructor
  · rintro rfl
    have hlen : (magic ++ schema ++ content ++ digest).length - 32 =
        (magic ++ schema ++ content).length := by
      rw [List.length_append, hdigest, Nat.add_sub_cancel]
    refine ⟨?_, ?_, ?_, ?_, ?_⟩
    · simp [hmagic, hschema, hdigest]
      omega
    · simp [hmagic]
    · simp [← hmagic, ← hschema]
    · have hheader : 12 = (magic ++ schema).length := by simp [hmagic, hschema]
      rw [hlen, List.take_left', hheader, List.drop_left']
      · rfl
      · rfl
    · rw [hlen, List.drop_left']
      rfl
  · rintro ⟨hlen, rfl, rfl, rfl, rfl⟩
    have hbody : bytes.take 8 ++ (bytes.drop 8).take 4 = (bytes.take (bytes.length - 32)).take 12 := by
      rw [List.take_take, Nat.min_eq_left (by omega), ← List.take_add]
    rw [hbody, List.take_append_drop, List.take_append_drop]

/-- The required fields are parsed from exactly the bytes they are written to. -/
theorem parseOuter_eq_ok {magic domain bytes : List UInt8} {requiredTags : List UInt16}
    {payloads : List (List UInt8)} (hmagic : magic.length = 8)
    (hrequired : (0 :: requiredTags).IsChain (· < ·)) :
    parseOuter sha magic domain requiredTags bytes = .ok payloads ↔
      payloads.length = requiredTags.length ∧
        encodeOuter sha magic domain (requiredTags.zip payloads) = .ok bytes := by
  have hmax : ckProfileMaxBytes.toNat = 536870912 := rfl
  have hheader : outerHeaderBytes + digestBytes = 44 := rfl
  have hsorted : requiredTags.Pairwise (· < ·) := (List.isChain_iff_pairwise.mp hrequired).tail
  have hschemaLength : (u32Bytes ckProfileFormatSchema).length = 4 := bigEndian_length 4 _
  have hdigestLength : ∀ digest : Digest, digest.toList.length = 32 := by simp
  have hbody : ∀ body digest, bytes = body ++ digest →
      bytes.drop (bytes.length - 32) = digest → bytes.take (bytes.length - 32) = body := by
    rintro body digest hbytes rfl
    have hsplit := List.take_append_drop (bytes.length - 32) bytes
    exact List.append_cancel_right (hsplit.trans hbytes)
  rw [encodeOuter_eq_ok]
  constructor
  · intro h
    unfold parseOuter at h
    rw [hmax, hheader] at h
    split_ifs at h with hlimit hshort hmagicBytes
    dsimp only at h
    split_ifs at h with hschema hdigest
    obtain ⟨fields, hparse, horder⟩ := bind_eq_ok.mp h
    obtain ⟨hfollow, hcontent⟩ := (parseFields_eq_ok le_rfl).mp hparse
    obtain ⟨hlen, rfl⟩ := (orderFields_eq_ok hsorted hfollow).mp horder
    have hfour : ((bytes.drop 8).take 4).length = 4 := by
      rw [List.length_take_of_le]
      rw [List.length_drop]
      omega
    have hparts := (outer_parts hmagic hschemaLength (by simp; omega)).mpr
      ⟨by omega, not_not.mp hmagicBytes, (ofBigEndian_u32 hfour).mp (not_not.mp hschema),
        hcontent, rfl⟩
    have htake := hbody _ _ hparts rfl
    refine ⟨hlen, ?_, by omega, ?_⟩
    · intro field hfield
      have := (fieldsFollow_iff.mp hfollow).2.2 field hfield
      omega
    · rw [outerBody, ← htake]
      rw [not_not, digestBytes] at hdigest
      rw [hdigest, List.take_append_drop]
  · rintro ⟨hlen, hfields, hlimit, hbytes⟩
    obtain ⟨hlong, hmagicBytes, hschema, hcontent, hdigest⟩ :=
      (outer_parts hmagic hschemaLength (hdigestLength _)).mp hbytes
    have htake := hbody _ _ hbytes hdigest
    have hfour : ((bytes.drop 8).take 4).length = 4 := by rw [hschema, hschemaLength]
    have hfollow : FieldsFollow requiredTags 0 (requiredTags.zip payloads) := by
      rw [fieldsFollow_iff, List.map_fst_zip (by omega)]
      refine ⟨hrequired, ?_, ?_⟩
      · intro field hfield
        exact (List.of_mem_zip hfield).1
      · intro field hfield
        have hsub : (fieldBytes field).length ≤
            ((requiredTags.zip payloads).flatMap fieldBytes).length := by
          rw [List.flatMap_def]
          exact (List.sublist_flatten_of_mem (List.mem_map_of_mem hfield)).length_le
        have hcontentLength := congrArg List.length hcontent
        rw [List.length_drop, List.length_take] at hcontentLength
        rw [fieldBytes_length] at hsub
        omega
    unfold parseOuter
    rw [hmax, hheader, if_neg (by omega), if_neg (by omega), if_neg (not_not.mpr hmagicBytes)]
    dsimp only
    rw [if_neg (not_not.mpr ((ofBigEndian_u32 hfour).mpr hschema))]
    rw [if_neg (by rw [digestBytes, htake, hdigest, not_not])]
    apply bind_eq_ok.mpr
    refine ⟨requiredTags.zip payloads, (parseFields_eq_ok le_rfl).mpr ⟨hfollow, hcontent⟩, ?_⟩
    exact (orderFields_eq_ok hsorted hfollow).mpr ⟨hlen, rfl⟩

end Sha

end CalcKernel
