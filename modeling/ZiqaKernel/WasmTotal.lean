/-
Which files `parse_wasm` can read without a fault.  The conditions go through the bytes
as the format lays them out; `K` is what has to hold for the bytes behind.
-/
import ZiqaKernel.WasmParser

namespace ZiqaKernel

/-- What the bytes read so far say about the instance: the pages of its memory, the
numbers of functions and of bodies, and the places and lengths of the data segments. -/
structure WasmDemand where
  pages : Nat
  functions : Nat
  bodies : Nat
  segments : List (UInt64 × Nat)

section

variable (heap : Nat) (data : List UInt8)

/-- If a number can be read at `offset`, then `K` holds for it and the offset behind. -/
def NumberThen (offset : Nat) (K : Nat → Nat → Prop) : Prop :=
  ∀ v next, readLeb128 data offset = some (v, next) → K v.toNat next

/-- A name lies in the data, and if it is UTF-8, then `K` holds for the offset behind. -/
def NameThen (offset : Nat) (K : Nat → Prop) : Prop :=
  NumberThen data offset fun len offset => offset + len ≤ data.length ∧
    (utf8Valid ((data.drop offset).take len) = true → K (offset + len))

def TypesThen : Nat → Nat → Prop → Prop
  | 0, _, K => K
  | n + 1, offset, K => data[offset]? = some 0x60 →
      NumberThen data (offset + 1) fun params offset => offset + params < 2 ^ 64 ∧
        NumberThen data (offset + params) fun rets offset => offset + rets < 2 ^ 64 ∧
          TypesThen n (offset + rets) K

def ImportsThen : Nat → Nat → WasmDemand → (WasmDemand → Prop) → Prop
  | 0, _, d, K => K d
  | n + 1, offset, d, K =>
    NameThen data offset fun offset => NameThen data offset fun offset =>
      ∃ kind, data[offset]? = some kind ∧
        if kind = 0x00 then
          NumberThen data (offset + 1) fun _ offset => ImportsThen n offset d K
        else if kind = 0x01 then offset + 1 < data.length ∧
          NumberThen data (offset + 2) fun _ offset => ImportsThen n offset d K
        else if kind = 0x02 then offset + 1 < data.length ∧
          NumberThen data (offset + 2) fun min offset =>
            ImportsThen n offset { d with pages := min } K
        else offset + 1 < data.length ∧ offset + 2 < data.length ∧ ImportsThen n (offset + 3) d K

def FunctionsThen : Nat → Nat → WasmDemand → (WasmDemand → Prop) → Prop
  | 0, _, d, K => K d
  | n + 1, offset, d, K => NumberThen data offset fun _ offset =>
    FunctionsThen n offset { d with functions := d.functions + 1 } K

def MemoriesThen : Nat → Nat → WasmDemand → (WasmDemand → Prop) → Prop
  | 0, _, d, K => K d
  | n + 1, offset, d, K => ∃ flags, data[offset]? = some flags ∧
      NumberThen data (offset + 1) fun min offset =>
        if flags &&& 1 ≠ 0 then NumberThen data offset fun _ offset =>
          MemoriesThen n offset { d with pages := min } K
        else MemoriesThen n offset { d with pages := min } K

def ExportsThen : Nat → Nat → Prop → Prop
  | 0, _, K => K
  | n + 1, offset, K => NameThen data offset fun offset => offset < data.length ∧
      NumberThen data (offset + 1) fun _ offset => ExportsThen n offset K

def LocalsThen : Nat → Nat → (Nat → Prop) → Prop
  | 0, offset, K => K offset
  | n + 1, offset, K => NumberThen data offset fun _ offset =>
    offset < data.length ∧ LocalsThen n (offset + 1) K

def CodesThen : Nat → Nat → WasmDemand → (WasmDemand → Prop) → Prop
  | 0, _, d, K => K d
  | n + 1, offset, d, K => NumberThen data offset fun size start => start + size < 2 ^ 64 ∧
      NumberThen data start fun count offset => LocalsThen data count offset fun offset =>
        offset ≤ start + size ∧ start + size - offset ≤ heap ∧ start + size ≤ data.length ∧
          CodesThen n (start + size) { d with bodies := d.bodies + 1 } K

/-- The signed number at the head of the bytes ends within ten bytes, or the data do. -/
def SignedShort (bytes : List UInt8) : Prop :=
  bytes.length ≤ 10 ∨ ∃ b ∈ bytes.take 10, b &&& 0x80 = 0

def SignedThen (msg : String) (offset : Nat) (K : UInt64 → Nat → Prop) : Prop :=
  SignedShort (data.drop offset) ∧ ∀ v next, lebSigned data msg offset = .ok (v, next) → K v next

def DatasThen : Nat → Nat → WasmDemand → (WasmDemand → Prop) → Prop
  | 0, _, d, K => K d
  | n + 1, offset, d, K => NumberThen data offset fun _ offset =>
    ∃ opcode, data[offset]? = some opcode ∧ (opcode = 0x41 →
      SignedThen data "Failed to read offset value" (offset + 1) fun memOff offset =>
        ∃ opcode, data[offset]? = some opcode ∧ (opcode = 0x0B →
          NumberThen data (offset + 1) fun len offset =>
            len ≤ heap ∧ offset + len ≤ data.length ∧ DatasThen n (offset + len)
                { d with segments := d.segments ++ [(memOff, len)] } K))

/-- The section with the given id, whose contents begin at `offset`. -/
def SectionThen (id : UInt8) (offset : Nat) (d : WasmDemand) (K : WasmDemand → Prop) : Prop :=
  if id = 1 then NumberThen data offset fun n offset => TypesThen data n offset (K d)
  else if id = 2 then NumberThen data offset fun n offset => ImportsThen data n offset d K
  else if id = 3 then NumberThen data offset fun n offset => FunctionsThen data n offset d K
  else if id = 5 then NumberThen data offset fun n offset => MemoriesThen data n offset d K
  else if id = 7 then NumberThen data offset fun n offset => ExportsThen data n offset (K d)
  else if id = 8 then NumberThen data offset fun _ _ => K d
  else if id = 10 then NumberThen data offset fun n offset => CodesThen heap data n offset d K
  else if id = 11 then NumberThen data offset fun n offset => DatasThen heap data n offset d K
  else K d

def SectionsThen : Nat → Nat → WasmDemand → (WasmDemand → Prop) → Prop
  | 0, _, d, K => K d
  | rounds + 1, offset, d, K =>
    match data[offset]? with
    | none => K d
    | some id => NumberThen data (offset + 1) fun len offset => offset + len < 2 ^ 64 ∧
        (offset + len ≤ data.length → SectionThen heap data id offset d fun d =>
          SectionsThen rounds (offset + len) d K)

end

/-- No segment up to the first that exceeds the memory has an end that overflows. -/
def SegmentsFit (size : Nat) : List (UInt64 × Nat) → Prop
  | [] => True
  | (memOff, len) :: rest => memOff.toNat + len < 2 ^ 64 ∧
      (memOff.toNat + len ≤ size → SegmentsFit size rest)

def WasmDemand.Served (heap : Nat) (d : WasmDemand) : Prop :=
  d.functions = d.bodies → d.pages * 64 * 1024 < 2 ^ 64 ∧ d.pages * 64 * 1024 ≤ heap ∧
    SegmentsFit (d.pages * 64 * 1024) d.segments

/-- The bytes never make `parse_wasm` fault, as long as requests up to `heap` are served. -/
def WasmSafe (heap : Nat) (data : List UInt8) : Prop :=
  8 ≤ data.length → data.take 4 = [0x00, 0x61, 0x73, 0x6D] → (data.drop 4).take 4 = [1, 0, 0, 0] →
    SectionsThen heap data data.length 8 ⟨0, 0, 0, []⟩ (WasmDemand.Served heap)

/-! Access to the data -/

section

variable {α : Type} (data : List UInt8) (offset : Nat)

@[simp]
theorem returns_ite (c : Prop) [Decidable c] (x y : WasmM α) (K : α → Prop) :
    Returns (if c then x else y) K ↔ if c then Returns x K else Returns y K := by
  split <;> rfl

theorem numberThen_congr {K K' : Nat → Nat → Prop} (hiff : ∀ v next, K v next ↔ K' v next) :
    NumberThen data offset K ↔ NumberThen data offset K' :=
  forall₃_congr fun v next _ => hiff v.toNat next

variable (msg : String)

@[simp]
theorem returns_leb (K : Nat × Nat → Prop) :
    Returns (leb data msg offset) K ↔ NumberThen data offset fun v next => K (v, next) := by
  unfold leb NumberThen
  split
  · next hnone => simp [hnone]
  · next v next hsome =>
    simp only [hsome, Option.some.injEq, Prod.mk.injEq, and_imp]
    exact ⟨fun h _ _ hv hnext => hv ▸ hnext ▸ h, fun h => h v next rfl rfl⟩

@[simp]
theorem returns_dataAt (K : UInt8 → Prop) :
    Returns (dataAt data offset) K ↔ ∃ b, data[offset]? = some b ∧ K b := by
  unfold dataAt
  split
  · next hnone => simp [hnone]
  · next b hsome =>
    simp only [hsome, Option.some.injEq, exists_eq_left']
    exact Iff.rfl

theorem exists_byte_iff (P : Prop) :
    (∃ b, data[offset]? = some b ∧ P) ↔ offset < data.length ∧ P := by
  rw [exists_and_right]
  refine and_congr_left fun _ => ⟨?_, fun h => ⟨_, List.getElem?_eq_getElem h⟩⟩
  rintro ⟨b, hb⟩
  exact (List.getElem?_eq_some_iff.mp hb).1

@[simp]
theorem returns_dataRange (len : Nat) (K : List UInt8 → Prop) :
    Returns (dataRange data offset len) K ↔
      offset + len ≤ data.length ∧ K ((data.drop offset).take len) := by
  unfold dataRange
  split
  · next h => exact ⟨fun hk => ⟨h, hk⟩, fun hk => hk.2⟩
  · next h => exact ⟨False.elim, fun hk => h hk.1⟩

@[simp]
theorem returns_advance (n : Nat) (K : Nat → Prop) :
    Returns (advance offset n) K ↔ offset + n < 2 ^ 64 ∧ K (offset + n) := by
  unfold advance
  split
  · next h => exact ⟨fun hk => ⟨h, hk⟩, fun hk => hk.2⟩
  · next h => exact ⟨False.elim, fun hk => h hk.1⟩

@[simp]
theorem returns_requestBytes (heap n : Nat) (K : Unit → Prop) :
    Returns (requestBytes heap n) K ↔ n ≤ heap ∧ K () := by
  unfold requestBytes
  split
  · next h => exact ⟨fun hk => ⟨h, hk⟩, fun hk => hk.2⟩
  · next h => exact ⟨False.elim, fun hk => h hk.1⟩

@[simp]
theorem returns_readName (lengthMsg nameMsg : String) (K : List UInt8 × Nat → Prop) :
    Returns (readName data lengthMsg nameMsg offset) K ↔
      NumberThen data offset fun len offset => offset + len ≤ data.length ∧
        (utf8Valid ((data.drop offset).take len) = true →
          K ((data.drop offset).take len, offset + len)) := by
  simp only [readName, returns_bind, returns_leb, returns_dataRange, returns_ite, returns_pure,
    returns_refused]
  refine numberThen_congr data offset fun len next => and_congr_right fun _ => ?_
  split
  · next h => exact ⟨fun hk _ => hk, fun hk => hk h⟩
  · next h => exact ⟨fun _ hv => absurd hv h, fun _ => trivial⟩

theorem returns_lebSignedLoop (bytes : List UInt8) (i : Nat) (result : UInt64)
    (hi : i ≤ 10) :
    Returns (lebSignedLoop msg (7 * i) result offset bytes) (fun _ => True) ↔
      bytes.length ≤ 10 - i ∨ ∃ b ∈ bytes.take (10 - i), b &&& 0x80 = 0 := by
  induction bytes generalizing offset i result with
  | nil => exact iff_of_true trivial (.inl (Nat.zero_le _))
  | cons byte rest ih =>
    unfold lebSignedLoop
    split
    · next hshift =>
      have hten : 10 - i = 0 := by omega
      simp [hten]
    · next hshift =>
      have hleft : 10 - i = (10 - (i + 1)) + 1 := by omega
      simp only [hleft, List.take_succ_cons, List.mem_cons, exists_eq_or_imp]
      split
      · next hlast =>
        refine iff_of_true ?_ (.inr (.inl hlast))
        split <;> trivial
      · next hmore =>
        have hnext := ih (offset + 1) (i + 1)
          (result ||| ((byte &&& 0x7F).toUInt64 <<< UInt64.ofNat (7 * i))) (by omega)
        rw [Nat.mul_succ] at hnext
        rw [hnext, List.length_cons, Nat.add_le_add_iff_right, or_iff_right hmore]

theorem signedThen_congr {msg : String} {K K' : UInt64 → Nat → Prop}
    (hiff : ∀ v next, K v next ↔ K' v next) :
    SignedThen data msg offset K ↔ SignedThen data msg offset K' :=
  and_congr_right fun _ => forall₃_congr fun v next _ => hiff v next

theorem returns_lebSigned (K : UInt64 × Nat → Prop) :
    Returns (lebSigned data msg offset) K ↔
      SignedThen data msg offset fun v next => K (v, next) := by
  rw [returns_iff, SignedThen, Prod.forall]
  exact and_congr_left fun _ => returns_lebSignedLoop offset msg (data.drop offset) 0 0 (by decide)

end

/-! The sections -/

def WasmParts.demand (parts : WasmParts) : WasmDemand where
  pages := parts.memorySizePages
  functions := parts.internalTypes.length
  bodies := parts.codeBodies.length
  segments := parts.dataSegments.map fun (memOff, segment) => (memOff, segment.length)

variable (parts : WasmParts)

theorem demand_addType (typeIdx : Nat) :
    { parts with internalTypes := parts.internalTypes ++ [typeIdx] }.demand =
      { parts.demand with functions := parts.demand.functions + 1 } := by
  rw [WasmParts.demand, List.length_append]
  rfl

theorem demand_addBody (body : List WasmLocalDecl × List UInt8) :
    { parts with codeBodies := parts.codeBodies ++ [body] }.demand =
      { parts.demand with bodies := parts.demand.bodies + 1 } := by
  rw [WasmParts.demand, List.length_append]
  rfl

theorem demand_addSegment (memOff : UInt64) (segment : List UInt8) :
    { parts with dataSegments := parts.dataSegments ++ [(memOff, segment)] }.demand =
      { parts.demand with segments := parts.demand.segments ++ [(memOff, segment.length)] } := by
  rw [WasmParts.demand, List.map_append]
  rfl

theorem demand_start (c : Prop) [Decidable c] (idx : Nat) :
    (if c then { parts with startFuncIdx := some idx } else parts).demand = parts.demand := by
  split
  · rfl
  · rfl

section

variable (heap : Nat) (data : List UInt8) (K : WasmDemand → Prop)

theorem returns_parseTypes (n offset : Nat) (parts : WasmParts) :
    Returns (parseTypes data n offset parts) (fun parts => K parts.demand) ↔
      TypesThen data n offset (K parts.demand) := by
  induction n generalizing offset parts with
  | zero => exact Iff.rfl
  | succ n ih =>
    rw [parseTypes, TypesThen]
    split
    · next h =>
      simp only [h, returns_bind, returns_leb, returns_advance, ih, forall_const]
      exact Iff.rfl
    · next h => simp only [h, returns_refused, false_implies]

theorem returns_parseImports (n offset : Nat) (parts : WasmParts) :
    Returns (parseImports data n offset parts) (fun parts => K parts.demand) ↔
      ImportsThen data n offset parts.demand K := by
  induction n generalizing offset parts with
  | zero => exact Iff.rfl
  | succ n ih =>
    simp only [parseImports, ImportsThen, NameThen, returns_bind, returns_readName,
      returns_dataAt, returns_ite, returns_leb, ih, exists_byte_iff]
    exact Iff.rfl

theorem returns_parseFunctions (n offset : Nat) (parts : WasmParts) :
    Returns (parseFunctions data n offset parts) (fun parts => K parts.demand) ↔
      FunctionsThen data n offset parts.demand K := by
  induction n generalizing offset parts with
  | zero => exact Iff.rfl
  | succ n ih =>
    simp only [parseFunctions, FunctionsThen, returns_bind, returns_leb, ih, demand_addType]

theorem returns_parseMemories (n offset : Nat) (parts : WasmParts) :
    Returns (parseMemories data n offset parts) (fun parts => K parts.demand) ↔
      MemoriesThen data n offset parts.demand K := by
  induction n generalizing offset parts with
  | zero => exact Iff.rfl
  | succ n ih =>
    simp only [parseMemories, MemoriesThen, returns_bind, returns_dataAt, returns_leb,
      returns_ite, ih]
    exact Iff.rfl

theorem returns_parseExports (n offset : Nat) (parts : WasmParts) :
    Returns (parseExports data n offset parts) (fun parts => K parts.demand) ↔
      ExportsThen data n offset (K parts.demand) := by
  induction n generalizing offset parts with
  | zero => exact Iff.rfl
  | succ n ih =>
    simp only [parseExports, ExportsThen, NameThen, returns_bind, returns_readName,
      returns_dataAt, returns_leb, ih, demand_start, exists_byte_iff]

theorem returns_parseLocals (n offset : Nat) (decls : List WasmLocalDecl) (K : Nat → Prop) :
    Returns (parseLocals data n offset decls) (fun r => K r.2) ↔ LocalsThen data n offset K := by
  induction n generalizing offset decls with
  | zero => exact Iff.rfl
  | succ n ih =>
    simp only [parseLocals, LocalsThen, returns_bind, returns_leb, returns_dataAt, ih,
      exists_byte_iff]

theorem returns_parseCodes (n offset : Nat) (parts : WasmParts) :
    Returns (parseCodes heap data n offset parts) (fun parts => K parts.demand) ↔
      CodesThen heap data n offset parts.demand K := by
  induction n generalizing offset parts with
  | zero => exact Iff.rfl
  | succ n ih =>
    simp only [parseCodes, CodesThen, returns_bind, returns_leb, returns_advance,
      returns_ite, returns_fault, returns_requestBytes, returns_dataRange, ih,
      demand_addBody]
    refine numberThen_congr data _ fun size start => and_congr_right fun _ =>
      numberThen_congr data _ fun count offset => ?_
    rw [← returns_parseLocals data count offset []]
    refine returns_congr fun r => ?_
    split
    · next h => exact ⟨False.elim, fun hle => by omega⟩
    · next h =>
      have hend : r.2 + (start + size - r.2) = start + size := by omega
      rw [hend]
      exact ⟨fun hk => ⟨by omega, hk⟩, fun hk => hk.2⟩

theorem returns_parseDatas (n offset : Nat) (parts : WasmParts) :
    Returns (parseDatas heap data n offset parts) (fun parts => K parts.demand) ↔
      DatasThen heap data n offset parts.demand K := by
  induction n generalizing offset parts with
  | zero => exact Iff.rfl
  | succ n ih =>
    simp only [parseDatas, DatasThen, returns_bind, returns_leb, returns_dataAt, returns_ite,
      returns_refused, returns_lebSigned, returns_requestBytes, returns_dataRange, ih,
      demand_addSegment, ite_not, if_true_right]
    refine numberThen_congr data _ fun _ _ => exists_congr fun _ => and_congr_right fun _ =>
      imp_congr_right fun _ => signedThen_congr data _ fun memOff _ => exists_congr fun _ =>
      and_congr_right fun _ => imp_congr_right fun _ => numberThen_congr data _ fun len next =>
      and_congr_right fun _ => and_congr_right fun hrange => ?_
    have hlength : ((data.drop next).take len).length = len := by
      rw [List.length_take, List.length_drop]
      omega
    rw [hlength]

theorem returns_parseSection (id : UInt8) (offset : Nat) (parts : WasmParts) :
    Returns (parseSection heap data id offset parts) (fun parts => K parts.demand) ↔
      SectionThen heap data id offset parts.demand K := by
  simp only [parseSection, SectionThen, returns_ite, returns_bind, returns_leb, returns_pure,
    returns_parseTypes, returns_parseImports, returns_parseFunctions, returns_parseMemories,
    returns_parseExports, returns_parseCodes, returns_parseDatas]
  exact Iff.rfl

theorem returns_parseSections (rounds offset : Nat) (parts : WasmParts) :
    Returns (parseSections heap data rounds offset parts) (fun parts => K parts.demand) ↔
      SectionsThen heap data rounds offset parts.demand K := by
  induction rounds generalizing offset parts with
  | zero => exact Iff.rfl
  | succ rounds ih =>
    unfold parseSections SectionsThen
    cases data[offset]? with
    | none => exact Iff.rfl
    | some id =>
      simp only [returns_bind, returns_leb, returns_advance, returns_ite, returns_refused,
        ih, if_true_left, Nat.not_lt]
      refine numberThen_congr data _ fun len offset => and_congr_right fun _ =>
        imp_congr_right fun _ => ?_
      exact returns_parseSection heap data
        (fun d => SectionsThen heap data rounds (offset + len) d K) id offset parts

end

/-! The instance -/

theorem returns_placeSegments (segments : List (UInt64 × List UInt8)) (memory : List UInt8) :
    Returns (placeSegments segments memory) (fun _ => True) ↔ SegmentsFit memory.length
        (segments.map fun (memOff, segment) => (memOff, segment.length)) := by
  induction segments generalizing memory with
  | nil => exact Iff.rfl
  | cons first rest ih =>
    obtain ⟨memOff, segment⟩ := first
    simp only [placeSegments, returns_bind, returns_advance, returns_ite, returns_refused, ih,
      if_true_left, Nat.not_lt, List.map_cons, SegmentsFit]
    refine and_congr_right fun _ => imp_congr_right fun hfits => ?_
    have hlength : (memory.take memOff.toNat ++ segment ++
        memory.drop (memOff.toNat + segment.length)).length = memory.length := by
      simp only [List.length_append, List.length_take, List.length_drop]
      omega
    rw [hlength]

theorem returns_instantiate (heap : Nat) (parts : WasmParts) :
    Returns (instantiate heap parts) (fun _ => True) ↔ parts.demand.Served heap := by
  simp only [instantiate, returns_ite, returns_refused, returns_fault, returns_bind,
    returns_requestBytes, returns_pure, returns_placeSegments, List.length_replicate,
    if_true_left, if_false_left, Nat.not_le, not_not, ne_eq]
  exact Iff.rfl

/-- `parse_wasm` returns exactly for the bytes that are safe to read. -/
theorem parseWasm_ne_fault_iff (heap : Nat) (data : List UInt8) :
    parseWasm heap data ≠ .error .fault ↔ WasmSafe heap data := by
  rw [← returns_true_iff]
  simp only [parseWasm, returns_ite, returns_refused, returns_bind, returns_instantiate,
    returns_parseSections, if_true_left, Nat.not_lt, not_not, ne_eq]
  exact Iff.rfl

-- The loop of the kernel's own tests.
example : (parseWasm 64 [0x00, 0x61, 0x73, 0x6d, 0x01, 0x00, 0x00, 0x00, 0x01, 0x04, 0x01,
    0x60, 0x00, 0x00, 0x03, 0x02, 0x01, 0x00, 0x07, 0x0a, 0x01, 0x06, 0x5f, 0x73, 0x74, 0x61,
    0x72, 0x74, 0x00, 0x00, 0x0a, 24, 0x01, 22, 0x01, 0x01, 0x7f, 0x41, 0x05, 0x21, 0x00,
    0x03, 0x40, 0x20, 0x00, 0x41, 0x01, 0x6b, 0x21, 0x00, 0x20, 0x00, 0x0d, 0x00, 0x0b,
    0x0b]).isOk = true := by
  decide +kernel

def cutMemory : List UInt8 := [0x00, 0x61, 0x73, 0x6D, 1, 0, 0, 0, 5, 1, 1]

/-- No amount of memory keeps the parser from indexing past the end of the data. -/
theorem parseWasm_cutMemory_faults : ∃ data, ∀ heap, parseWasm heap data = .error .fault :=
  ⟨cutMemory, fun _ => rfl⟩

end ZiqaKernel
