import CalcKernel.Kir.Builder
import CalcKernel.Kir.Semantics
import CalcKernel.Lib.Assoc

/-!
# Types of values

The type each value of a function is declared with, the values a type holds, and
the order in which an undefined value stands below every other.  The typing rules
of instructions are those MIR validation checks, in the shape KIR construction
gives them; checked operations may have lost their overflow flag.
-/

namespace CalcKernel

/-! ## Declared types -/

def KirBlock.valueTypes (b : KirBlock) : List (ValueId × KirValueType) :=
  b.params.map (fun p ↦ (p.value, p.typeNode)) ++
    b.instructions.flatMap fun i ↦ i.results.map fun r ↦ (r.value, r.typeNode)

namespace KirFunction

/-- The declared type of every value, in the order of `valueIds`. -/
def valueTypes (f : KirFunction) : List (ValueId × KirValueType) :=
  f.params.map (fun p ↦ (p.value, .scalar p.typeNode)) ++ f.blocks.flatMap (·.valueTypes)

def valueType? (f : KirFunction) (v : ValueId) : Option KirValueType :=
  f.valueTypes.lookup v

def scalarType? (f : KirFunction) (v : ValueId) : Option MirType :=
  (f.valueType? v).bind (·.asScalar)

theorem valueTypes_keys (f : KirFunction) : f.valueTypes.map Prod.fst = f.valueIds := by
  have hblock : ∀ b : KirBlock, b.valueTypes.map Prod.fst =
      b.params.map (·.value) ++ b.instructions.flatMap (·.defs) := by
    intro b
    simp [KirBlock.valueTypes, List.map_flatMap, KirInstruction.defs, Function.comp_def]
  simp [valueTypes, valueIds, List.map_flatMap, hblock, Function.comp_def]

variable {f : KirFunction}

theorem valueType?_of_mem (hssa : f.valueIds.Nodup) {v : ValueId} {type : KirValueType}
    (h : (v, type) ∈ f.valueTypes) : f.valueType? v = some type := by
  apply Lib.lookup_of_mem _ h
  rwa [valueTypes_keys]

theorem valueType?_of_result (hssa : f.valueIds.Nodup) {i : KirInstruction}
    (hi : i ∈ f.instructions) {r : KirResult} (hr : r ∈ i.results) :
    f.valueType? r.value = some r.typeNode := by
  obtain ⟨b, hb, hib⟩ := List.mem_flatMap.mp hi
  apply valueType?_of_mem hssa
  refine List.mem_append_right _ (List.mem_flatMap.mpr ⟨b, hb, ?_⟩)
  exact List.mem_append_right _ (List.mem_flatMap.mpr ⟨i, hib, List.mem_map_of_mem hr⟩)

theorem valueType?_of_blockParam (hssa : f.valueIds.Nodup) {b : KirBlock} (hb : b ∈ f.blocks)
    {p : KirBlockParam} (hp : p ∈ b.params) : f.valueType? p.value = some p.typeNode := by
  apply valueType?_of_mem hssa
  refine List.mem_append_right _ (List.mem_flatMap.mpr ⟨b, hb, ?_⟩)
  exact List.mem_append_left _ (List.mem_map_of_mem (f := fun q ↦ (q.value, q.typeNode)) hp)

theorem scalarType?_of_param (hssa : f.valueIds.Nodup) {p : KirParam} (hp : p ∈ f.params) :
    f.scalarType? p.value = some p.typeNode := by
  have h : f.valueType? p.value = some (.scalar p.typeNode) :=
    valueType?_of_mem hssa (List.mem_append_left _
      (List.mem_map_of_mem (f := fun q : KirParam ↦ (q.value, KirValueType.scalar q.typeNode)) hp))
  rw [scalarType?, h]
  rfl

theorem mem_valueTypes_of_scalarType? {v : ValueId} {type : MirType}
    (h : f.scalarType? v = some type) : (v, .scalar type) ∈ f.valueTypes := by
  obtain ⟨t, ht, hscalar⟩ := Option.bind_eq_some_iff.mp h
  cases t with
  | scalar t =>
      cases hscalar
      exact Lib.mem_of_lookup ht
  | fixedVector | mask => cases hscalar

end KirFunction

/-! ## The values of a type -/

def IntegerType.mirType : IntegerType → MirType
  | .i32 => .i32
  | .i64 => .i64
  | .u32 => .u32
  | .u64 => .u64

theorem IntegerType.fromMir_mirType (t : IntegerType) : fromMir t.mirType = some t := by
  cases t <;> rfl

theorem IntegerType.eq_mirType {type : MirType} {t : IntegerType} (h : fromMir type = some t) :
    type = t.mirType := by
  unfold fromMir at h
  split at h <;> cases h <;> rfl

/-- The declared type of a struct's field. -/
def fieldType (structs : List MirStruct) (owner field : String) : Option MirType :=
  (structs.find? (·.name = owner)).bind fun s ↦
    (s.fields.find? (·.name = field)).map (·.typeNode)

/-- The values of a type.  A struct value may lack fields; those it has are of their types. -/
inductive HasType (structs : List MirStruct) : KirValue → MirType → Prop
  | int {t : IntegerType} {x : Int} (hx : t.Contains x) : HasType structs (.int t x) t.mirType
  | float (b : BitVec 64) : HasType structs (.float b) .f64
  | bool (b : Bool) : HasType structs (.bool b) .bool
  | pointer (a : Int) (element : MirType) : HasType structs (.pointer a) (.pointer element)
  | slice (data : Int) {len : Int} (element : MirType) (hlen : IntegerType.u32.Contains len) :
      HasType structs (.slice data len) (.slice element)
  | record {fields : List (String × KirValue)} {name : String}
      (h : ∀ field type v, fieldType structs name field = some type →
        fields.lookup field = some v → HasType structs v type) :
      HasType structs (.record fields) (.struct name)

/-! ## Less defined values -/

/-- The first value is the second where it is defined. -/
inductive Below : KirValue → KirValue → Prop
  | undef (y : KirValue) : Below .undef y
  | refl (x : KirValue) : Below x x
  | record {fields fields' : List (String × KirValue)}
      (hnames : fields.map Prod.fst = fields'.map Prod.fst)
      (h : ∀ (j : Nat) (p q : String × KirValue), fields[j]? = some p → fields'[j]? = some q →
        Below p.2 q.2) : Below (.record fields) (.record fields')

/-- No part of the value is undefined. -/
inductive Defined : KirValue → Prop
  | int (t : IntegerType) (x : Int) : Defined (.int t x)
  | float (b : BitVec 64) : Defined (.float b)
  | bool (b : Bool) : Defined (.bool b)
  | pointer (a : Int) : Defined (.pointer a)
  | slice (data len : Int) : Defined (.slice data len)
  | record {fields : List (String × KirValue)}
      (h : ∀ (j : Nat) (p : String × KirValue), fields[j]? = some p → Defined p.2) :
      Defined (.record fields)

namespace Below

variable {x y : KirValue}

@[simp] theorem int_iff {t : IntegerType} {n : Int} : Below (.int t n) y ↔ y = .int t n := by
  constructor
  · intro h
    cases h
    rfl
  · rintro rfl
    exact .refl _

@[simp] theorem float_iff {b : BitVec 64} : Below (.float b) y ↔ y = .float b := by
  constructor
  · intro h
    cases h
    rfl
  · rintro rfl
    exact .refl _

@[simp] theorem bool_iff {b : Bool} : Below (.bool b) y ↔ y = .bool b := by
  constructor
  · intro h
    cases h
    rfl
  · rintro rfl
    exact .refl _

@[simp] theorem pointer_iff {a : Int} : Below (.pointer a) y ↔ y = .pointer a := by
  constructor
  · intro h
    cases h
    rfl
  · rintro rfl
    exact .refl _

@[simp] theorem slice_iff {data len : Int} : Below (.slice data len) y ↔ y = .slice data len := by
  constructor
  · intro h
    cases h
    rfl
  · rintro rfl
    exact .refl _

theorem eq_of_defined (h : Below x y) (hx : Defined x) : y = x := by
  induction h with
  | undef y => cases hx
  | refl x => rfl
  | @record fields fields' hnames h ih =>
      cases hx with
      | record hdefined =>
          congr 1
          apply List.ext_getElem?
          intro j
          have hlen : fields.length = fields'.length := by
            simpa using congrArg List.length hnames
          rcases lt_or_ge j fields.length with hj | hj
          · have hj' : j < fields'.length := hlen ▸ hj
            have hp := List.getElem?_eq_getElem hj
            have hq := List.getElem?_eq_getElem hj'
            have hsnd := ih j _ _ hp hq (hdefined j _ hp)
            have hfst : fields'[j].1 = fields[j].1 := by
              have hj'' := congrArg (·[j]?) hnames
              simpa [hj, hj'] using hj''.symm
            rw [hp, hq, Prod.ext hfst hsnd]
          · rw [List.getElem?_eq_none hj, List.getElem?_eq_none (hlen ▸ hj)]

theorem lookup {fields fields' : List (String × KirValue)}
    (hnames : fields.map Prod.fst = fields'.map Prod.fst)
    (h : ∀ (j : Nat) (p q : String × KirValue), fields[j]? = some p → fields'[j]? = some q →
      Below p.2 q.2) {name : String} (hx : fields.lookup name = some x) :
    ∃ y, fields'.lookup name = some y ∧ Below x y := by
  induction fields generalizing fields' with
  | nil => cases hx
  | cons p fields ih =>
      cases fields' with
      | nil => cases hnames
      | cons q fields' =>
          obtain ⟨n, u⟩ := p
          obtain ⟨n', w⟩ := q
          simp only [List.map_cons, List.cons.injEq] at hnames
          obtain ⟨rfl, hnames⟩ := hnames
          rw [List.lookup_cons] at hx ⊢
          split at hx
          · cases hx
            exact ⟨w, rfl, h 0 _ _ rfl rfl⟩
          · exact ih hnames (fun j p q hp hq ↦ h (j + 1) p q hp hq) hx

/-- A field that the less defined value has is a field of the other. -/
theorem project (h : Below x y) {path : List String} {x' : KirValue}
    (hx : x.project path = some x') : ∃ y', y.project path = some y' ∧ Below x' y' := by
  induction path generalizing x y with
  | nil =>
      cases hx
      exact ⟨y, by simp [KirValue.project], h⟩
  | cons name path ih =>
      cases h with
      | undef y => simp [KirValue.project] at hx
      | refl x => exact ⟨x', hx, .refl x'⟩
      | record hnames h =>
          obtain ⟨v, hv, hx⟩ := Option.bind_eq_some_iff.mp hx
          obtain ⟨w, hw, hvw⟩ := lookup hnames h hv
          obtain ⟨y', hy', hxy'⟩ := ih hvw hx
          exact ⟨y', by simp [KirValue.project, hw, hy'], hxy'⟩

theorem replaceField {fields fields' : List (String × KirValue)}
    (hnames : fields.map Prod.fst = fields'.map Prod.fst)
    (h : ∀ (j : Nat) (p q : String × KirValue), fields[j]? = some p → fields'[j]? = some q →
      Below p.2 q.2) {name : String} (hxy : Below x y) :
    Below (.record (fields.map fun p ↦ if p.1 = name then (p.1, x) else p))
      (.record (fields'.map fun p ↦ if p.1 = name then (p.1, y) else p)) := by
  have hkeys : ∀ (l : List (String × KirValue)) (z : KirValue),
      (l.map fun p ↦ if p.1 = name then (p.1, z) else p).map Prod.fst = l.map Prod.fst := by
    intro l z
    rw [List.map_map]
    apply List.map_congr_left
    intro p _
    simp only [Function.comp_apply]
    split <;> rfl
  refine .record ((hkeys _ _).trans (hnames.trans (hkeys _ _).symm)) ?_
  intro j p' q' hp' hq'
  rw [List.getElem?_map] at hp' hq'
  obtain ⟨p, hp, rfl⟩ := Option.map_eq_some_iff.mp hp'
  obtain ⟨q, hq, rfl⟩ := Option.map_eq_some_iff.mp hq'
  have hname : p.1 = q.1 := by
    have hj := congrArg (·[j]?) hnames
    simpa [hp, hq] using hj
  by_cases hn : p.1 = name
  · rw [if_pos hn, if_pos (hname ▸ hn)]
    exact hxy
  · rw [if_neg hn, if_neg (hname ▸ hn)]
    exact h j p q hp hq

/-- Replacing a field keeps the order. -/
theorem update (h : Below x y) {path : List String} {u w x' : KirValue} (huw : Below u w)
    (hx : x.update path u = some x') : ∃ y', y.update path w = some y' ∧ Below x' y' := by
  induction path generalizing x y x' with
  | nil =>
      simp only [KirValue.update, Option.some.injEq] at hx
      subst hx
      exact ⟨w, by simp [KirValue.update], huw⟩
  | cons name path ih =>
      have hrecord : ∃ fields, x = .record fields := by
        cases x with
        | record fields => exact ⟨fields, rfl⟩
        | _ => simp [KirValue.update] at hx
      obtain ⟨fields, rfl⟩ := hrecord
      obtain ⟨v, hv, hx⟩ := Option.bind_eq_some_iff.mp hx
      obtain ⟨v', hv', rfl⟩ := Option.map_eq_some_iff.mp hx
      have hbelow : ∃ fields', y = .record fields' ∧
          fields.map Prod.fst = fields'.map Prod.fst ∧
          ∀ (j : Nat) (p q : String × KirValue), fields[j]? = some p → fields'[j]? = some q →
            Below p.2 q.2 := by
        cases h with
        | refl =>
            refine ⟨fields, rfl, rfl, ?_⟩
            intro j p q hp hq
            cases hp.symm.trans hq
            exact .refl _
        | record hnames h => exact ⟨_, rfl, hnames, h⟩
      obtain ⟨fields', rfl, hnames, hfields⟩ := hbelow
      obtain ⟨w₀, hw₀, hvw⟩ := lookup hnames hfields hv
      obtain ⟨w', hw', hbelow⟩ := ih hvw hv'
      exact ⟨_, by simp [KirValue.update, hw₀, hw'], replaceField hnames hfields hbelow⟩

end Below

namespace HasType

variable {structs : List MirStruct} {x y : KirValue} {type : MirType}

theorem replaceField {fields : List (String × KirValue)} {name field : String}
    (h : HasType structs (.record fields) (.struct name))
    (hy : fieldType structs name field = some type) (hty : HasType structs y type) :
    HasType structs (.record (fields.map fun p ↦ if p.1 = field then (p.1, y) else p))
      (.struct name) := by
  cases h with
  | record h =>
      refine .record ?_
      intro g T v hT hv
      by_cases hg : g = field
      · subst hg
        obtain rfl : type = T := by simpa [hy] using hT
        have hmem := Lib.mem_of_lookup hv
        obtain ⟨p, _, hp⟩ := List.mem_map.mp hmem
        by_cases hname : p.1 = g
        · rw [if_pos hname] at hp
          cases hp
          exact hty
        · rw [if_neg hname] at hp
          exact absurd (congrArg Prod.fst hp) hname
      · apply h g T v hT
        rw [← hv]
        clear hv h
        induction fields with
        | nil => rfl
        | cons p fields ih =>
            obtain ⟨n, u⟩ := p
            rw [List.map_cons, List.lookup_cons]
            by_cases hn : n = field
            · subst hn
              have hbeq : (g == n) = false := by simpa using hg
              simp only [if_true, List.lookup_cons, hbeq]
              exact ih
            · rw [if_neg hn, List.lookup_cons, ih]

end HasType

/-! ## What is asked of a target -/

/-- Memory holds values of the type it is read at, and only defined values have a
representation. -/
structure TargetModel.Represents (t : TargetModel) (structs : List MirStruct) : Prop where
  decode_hasType : ∀ {type bytes v}, bytes.length = t.sizeOf type → t.decode type bytes = some v →
    HasType structs v type
  encode_defined : ∀ {type v bytes}, t.encode type v = some bytes → Defined v

/-- Bytes of a word are those of its residue. -/
theorem decodeNat_lt (bytes : List UInt8) : decodeNat bytes < 256 ^ bytes.length := by
  induction bytes with
  | nil => simp [decodeNat]
  | cons b bytes ih =>
      have hb := b.toNat_lt
      have hcons : decodeNat (b :: bytes) = b.toNat + 256 * decodeNat bytes := rfl
      rw [hcons, List.length_cons, pow_succ]
      omega

theorem lp64_represents (floats : FloatOps) (structs : List MirStruct) :
    (lp64 floats).Represents structs where
  decode_hasType := by
    intro type bytes v hlen h
    have hlt := decodeNat_lt bytes
    cases type with
    | primitive name =>
        cases name with
        | i32 =>
            cases h
            exact .int (IntegerType.wrap_contains _ _)
        | i64 =>
            cases h
            exact .int (IntegerType.wrap_contains _ _)
        | u32 =>
            cases h
            have hlen : bytes.length = 4 := hlen
            rw [hlen] at hlt
            refine .int (t := .u32) ⟨?_, ?_⟩
            · simp [IntegerType.minimum]
            · simp only [IntegerType.maximum]
              omega
        | u64 =>
            cases h
            have hlen : bytes.length = 8 := hlen
            rw [hlen] at hlt
            refine .int (t := .u64) ⟨?_, ?_⟩
            · simp [IntegerType.minimum]
            · simp only [IntegerType.maximum]
              omega
        | f64 =>
            cases h
            exact .float _
        | bool =>
            cases h
            exact .bool _
    | pointer element =>
        cases h
        exact .pointer _ element
    | slice element =>
        cases h
        have hlen : bytes.length = 16 := hlen
        have hword := decodeNat_lt ((bytes.drop 8).take 4)
        have hfour : ((bytes.drop 8).take 4).length = 4 := by simp [hlen]
        rw [hfour] at hword
        refine .slice _ element ⟨?_, ?_⟩
        · simp [IntegerType.minimum]
        · simp only [IntegerType.maximum]
          omega
    | struct | void => cases h
  encode_defined := by
    intro type v bytes h
    cases v with
    | int t x => exact .int t x
    | float b => exact .float b
    | bool b => exact .bool b
    | pointer a => exact .pointer a
    | slice data len => exact .slice data len
    | record | vector | mask | undef =>
        cases type with
        | primitive name => cases name <;> cases h
        | _ => cases h

namespace Memory

theorem bytesAt_length {m : Memory} {a : Int} {n : Nat} {bytes : List UInt8}
    (h : m.bytesAt a n = some bytes) : bytes.length = n := by
  induction n generalizing a bytes with
  | zero =>
      cases h
      rfl
  | succ n ih =>
      obtain ⟨b, _, h⟩ := Option.bind_eq_some_iff.mp h
      obtain ⟨bs, hbs, rfl⟩ := Option.map_eq_some_iff.mp h
      rw [List.length_cons, ih hbs]

theorem read_hasType {t : TargetModel} {structs : List MirStruct} (ht : t.Represents structs)
    {m : Memory} {a : Int} {type : MirType} {v : KirValue} (h : m.read t a type = some v) :
    HasType structs v type := by
  obtain ⟨bytes, hbytes, hv⟩ := Option.bind_eq_some_iff.mp h
  exact ht.decode_hasType (bytesAt_length hbytes) hv

theorem write_defined {t : TargetModel} {structs : List MirStruct} (ht : t.Represents structs)
    {m m' : Memory} {a : Int} {type : MirType} {v : KirValue} (h : m.write t a type v = some m') :
    Defined v := by
  obtain ⟨_, _, h⟩ := Option.bind_eq_some_iff.mp h
  obtain ⟨bytes, hbytes, _⟩ := Option.map_eq_some_iff.mp h
  exact ht.encode_defined hbytes

end Memory

/-! ## Typing rules -/

section Rules

variable (structs : List MirStruct) (types : ValueId → Option MirType)

def KirPlace.wellTyped : KirPlace → Bool
  | .value v type _ => types v = some type
  | .deref pointer type _ => types pointer = some (.pointer type)
  | .index base i type _ =>
      base.wellTyped && base.typeNode = .pointer type &&
        (types i = some .i32 || types i = some .u32)
  | .sliceIndex slice i type _ => types slice = some (.slice type) && types i = some .u32
  | .field base name type _ =>
      base.wellTyped &&
        match base.typeNode with
        | .struct owner => fieldType structs owner name = some type
        | _ => false

/-- The operand types a check reads. -/
def KirCheckConditionKind.wellTyped (kind : KirCheckConditionKind) (args : List ValueId) : Bool :=
  match kind, args.map types with
  | .arithmeticOverflow, _ => true
  | .divisionByZero, [some type] => isIntegerType type
  | .signedDivisionOverflow, [some left, some right] =>
      isSignedIntegerType left && left = right
  | .sliceOutOfBounds, [some (.slice _), some index] => index = .u32
  | .invalidSubslice, [some (.slice _), some start, some stop] => start = .u32 && stop = .u32
  | _, _ => false

/-- The result types of an operator at a type.  The overflow flag of a checked operation is
dropped with its guard. -/
def arithmeticResults (semantics : KirArithmeticSemantics) (flagged : Bool) (type : MirType)
    (rest : List KirValueType) : Bool :=
  match semantics with
  | .strictFloat => type = .f64 && rest = []
  | .modular => isIntegerType type && rest = []
  | .checked => isIntegerType type && (rest = [] || flagged && rest = [.scalar .bool])

/-- What the callee of a call takes and gives. -/
def callWellTyped (m : KirModule) (name : String) (args : List ValueId)
    (results : List KirValueType) : Bool :=
  match m.function? name with
  | some callee =>
      args.map types = callee.params.map (some ·.typeNode) &&
        results = if callee.returnType = .void then [] else [.scalar callee.returnType]
  | none => false

def KirInstruction.resultTypes (i : KirInstruction) : List KirValueType :=
  i.results.map (·.typeNode)

/-- Vector instructions, prints and version predicates have rules of their own. -/
def KirInstruction.wellTyped (m : KirModule) (i : KirInstruction) : Bool :=
  match i.kind, i.resultTypes with
  | .undef _, [.scalar _] => true
  | .constInt _, [.scalar type] => isIntegerType type
  | .constFloat _, [.scalar type] => type = .f64
  | .constBool _, [.scalar type] => type = .bool
  | .copy v, [.scalar type] => types v = some type
  | .binary op left right semantics, .scalar type :: rest =>
      types left = some type && types right = some type &&
        arithmeticResults semantics (op ≠ .div && op ≠ .mod) type rest
  | .unary .neg v semantics, .scalar type :: rest =>
      types v = some type && arithmeticResults semantics true type rest
  | .unary .not v _, [.scalar type] => type = .bool && types v = some .bool
  | .compare _ left right, [.scalar type] =>
      type = .bool && types left = types right && (types left).isSome
  | .cast .i32ToF64 v, [.scalar type] => type = .f64 && types v = some .i32
  | .cast .u32ToF64 v, [.scalar type] => type = .f64 && types v = some .u32
  | .checkCondition kind args, [.scalar type] => type = .bool && kind.wellTyped types args
  | .guard condition _, [] => types condition = some .bool
  | .address place, [.scalar type] =>
      type = .pointer place.typeNode && place.wellTyped structs types
  | .load place, [.scalar type] => type = place.typeNode && place.wellTyped structs types
  | .store place v, [] => types v = some place.typeNode && place.wellTyped structs types
  | .makeSlice data len, [.scalar (.slice element)] =>
      types data = some (.pointer element) && types len = some .u32
  | .sliceData slice, [.scalar (.pointer element)] => types slice = some (.slice element)
  | .sliceLen slice, [.scalar type] =>
      type = .u32 &&
        match types slice with
        | some (.slice _) => true
        | _ => false
  | .subslice slice start stop, [.scalar (.slice element)] =>
      types slice = some (.slice element) && types start = some .u32 && types stop = some .u32
  | .call name args, results => callWellTyped types m name args results
  | .runtimeCall _ _, _ | .versionPredicate _, _ => true
  | .vectorSplat _ _, _ | .vectorLoad _ _, _ | .vectorStore _ _ _, _
  | .vectorBinary _ _ _ _ _ _, _ | .vectorUnary _ _ _ _ _, _ | .vectorCompare _ _ _ _, _
  | .vectorSelect _ _ _ _, _ | .vectorCast _ _ _, _ | .vectorInsert _ _ _ _, _
  | .vectorExtract _ _ _, _ | .vectorReduce _ _ _ _, _ => true
  | _, _ => false

end Rules

namespace KirFunction

variable (f : KirFunction)

def edgeWellTyped (edge : KirEdge) : Bool :=
  match f.block? edge.target with
  | some target => edge.args.map f.scalarType? = target.params.map fun p ↦ p.typeNode.asScalar
  | none => false

def terminatorWellTyped : KirTerminator → Bool
  | .return none _ _ => f.returnType = .void
  | .return (some v) _ _ => f.returnType ≠ .void && f.scalarType? v = some f.returnType
  | .jump edge => f.edgeWellTyped edge
  | .branch condition thenEdge elseEdge =>
      f.scalarType? condition = some .bool && f.edgeWellTyped thenEdge && f.edgeWellTyped elseEdge

def blockWellTyped (m : KirModule) (b : KirBlock) : Bool :=
  b.instructions.all (·.wellTyped m.structs f.scalarType? m) && f.terminatorWellTyped b.terminator

end KirFunction

/-- The flag a check or a checked operation must hand to the next instruction, a guard. -/
def KirInstruction.requiredGuard (i : KirInstruction) : Option (ValueId × KirFailureKind) :=
  match i.kind, i.results with
  | .binary .add _ _ .checked, [_, flag] | .binary .sub _ _ .checked, [_, flag]
  | .binary .mul _ _ .checked, [_, flag] | .unary .neg _ .checked, [_, flag] =>
      some (flag.value, .overflow)
  | .checkCondition kind _, [flag] =>
      some (flag.value,
        match kind with
        | .arithmeticOverflow | .signedDivisionOverflow => .overflow
        | .divisionByZero => .divisionByZero
        | .sliceOutOfBounds | .invalidSubslice => .outOfBounds)
  | _, _ => none

/-- Every required guard stands right after its instruction. -/
def guardsFollow : List KirInstruction → Bool
  | [] => true
  | [i] => i.requiredGuard = none
  | i :: next :: rest =>
      (match i.requiredGuard with
        | some (flag, failure) => next.kind = .guard flag failure
        | none => true) && guardsFollow (next :: rest)

/-- The identities the validator keeps apart, the guards it asks for, and the typing rules. -/
structure KirFunction.WellTyped (m : KirModule) (f : KirFunction) : Prop where
  values : f.valueIds.Nodup
  blockIds : (f.blocks.map (·.id)).Nodup
  instructionIds : (f.instructions.map (·.id)).Nodup
  guards : ∀ b ∈ f.blocks, guardsFollow b.instructions
  typed : ∀ b ∈ f.blocks, f.blockWellTyped m b

instance (m : KirModule) (f : KirFunction) : Decidable (f.WellTyped m) :=
  decidable_of_iff (f.valueIds.Nodup ∧ (f.blocks.map (·.id)).Nodup ∧
      (f.instructions.map (·.id)).Nodup ∧ (∀ b ∈ f.blocks, guardsFollow b.instructions) ∧
      ∀ b ∈ f.blocks, f.blockWellTyped m b)
    ⟨fun ⟨h₁, h₂, h₃, h₄, h₅⟩ ↦ ⟨h₁, h₂, h₃, h₄, h₅⟩, fun ⟨h₁, h₂, h₃, h₄, h₅⟩ ↦ ⟨h₁, h₂, h₃, h₄, h₅⟩⟩

structure KirModule.WellTyped (m : KirModule) : Prop where
  names : (m.functions.map (·.name)).Nodup
  functions : ∀ f ∈ m.functions, f.WellTyped m

instance (m : KirModule) : Decidable m.WellTyped :=
  decidable_of_iff ((m.functions.map (·.name)).Nodup ∧ ∀ f ∈ m.functions, f.WellTyped m)
    ⟨fun ⟨h₁, h₂⟩ ↦ ⟨h₁, h₂⟩, fun ⟨h₁, h₂⟩ ↦ ⟨h₁, h₂⟩⟩

end CalcKernel
