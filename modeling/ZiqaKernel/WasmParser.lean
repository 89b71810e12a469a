/-
`parse_wasm` (`abi/wasm/mod.rs`).  What Rust makes a panic (an index or a range outside
of the data, a sum, a difference, a product or a shift that overflows, a request for
more memory than the heap serves) is a fault.
-/
import ZiqaKernel.Endings
import ZiqaKernel.Utf8

namespace ZiqaKernel

/-! LEB128 -/

/-- The loop of `read_leb128` from the bytes at `offset` on. -/
def lebLoop (shift : Nat) (result : UInt64) (offset : Nat) : List UInt8 → Option (UInt64 × Nat)
  | [] => none
  | byte :: rest =>
    let result := result ||| ((byte &&& 0x7F).toUInt64 <<< UInt64.ofNat shift)
    if byte &&& 0x80 = 0 then some (result, offset + 1)
    else if shift + 7 ≥ 64 then none
    else lebLoop (shift + 7) result (offset + 1) rest

/-- `read_leb128`: the number and the offset behind it. -/
def readLeb128 (data : List UInt8) (offset : Nat) : Option (UInt64 × Nat) :=
  lebLoop 0 0 offset (data.drop offset)

abbrev WasmM (α : Type) : Type := Except (Ending String) α

/-- The loop of `read_leb128_signed`, which does not stop at 64 bits. -/
def lebSignedLoop (msg : String) (shift : Nat) (result : UInt64) (offset : Nat) :
    List UInt8 → WasmM (UInt64 × Nat)
  | [] => .error (.refused msg)
  | byte :: rest =>
    if shift ≥ 64 then .error .fault
    else
      let result := result ||| ((byte &&& 0x7F).toUInt64 <<< UInt64.ofNat shift)
      if byte &&& 0x80 = 0 then
        if shift + 7 < 64 ∧ byte &&& 0x40 ≠ 0 then
          .ok (result ||| (0xFFFFFFFFFFFFFFFF <<< UInt64.ofNat (shift + 7)), offset + 1)
        else .ok (result, offset + 1)
      else lebSignedLoop msg (shift + 7) result (offset + 1) rest

/-! Access to the data -/

section

variable (data : List UInt8)

def leb (msg : String) (offset : Nat) : WasmM (Nat × Nat) :=
  match readLeb128 data offset with
  | none => .error (.refused msg)
  | some (v, offset) => .ok (v.toNat, offset)

/-- A number as `usize`, from `read_leb128_signed`. -/
def lebSigned (msg : String) (offset : Nat) : WasmM (UInt64 × Nat) :=
  lebSignedLoop msg 0 0 offset (data.drop offset)

/-- `data[offset]` -/
def dataAt (offset : Nat) : WasmM UInt8 :=
  match data[offset]? with
  | none => .error .fault
  | some b => .ok b

/-- `&data[offset..offset + len]` -/
def dataRange (offset len : Nat) : WasmM (List UInt8) :=
  if offset + len ≤ data.length then .ok ((data.drop offset).take len) else .error .fault

/-- `offset + n` -/
def advance (offset n : Nat) : WasmM Nat :=
  if offset + n < 2 ^ 64 then .ok (offset + n) else .error .fault

/-- `vec![0u8; n]`, where `heap` is the largest request that is served. -/
def requestBytes (heap n : Nat) : WasmM Unit :=
  if n ≤ heap then .ok () else .error .fault

def readName (lengthMsg nameMsg : String) (offset : Nat) : WasmM (List UInt8 × Nat) := do
  let (len, offset) ← leb data lengthMsg offset
  let name ← dataRange data offset len
  if utf8Valid name then pure (name, offset + len) else .error (.refused nameMsg)

end

/-! The sections -/

/-- `WasmLocalDecl` -/
structure WasmLocalDecl where
  count : Nat
  valType : UInt8

inductive WasmFunction where
  | imported (module name : List UInt8) (typeIdx : Nat)
  | internal (typeIdx : Nat) (localsDecl : List WasmLocalDecl) (code : List UInt8)

structure WasmParts where
  functions : List WasmFunction
  memorySizePages : Nat
  dataSegments : List (UInt64 × List UInt8)
  startFuncIdx : Option Nat
  codeBodies : List (List WasmLocalDecl × List UInt8)
  typeSigs : List (Nat × Nat)
  internalTypes : List Nat

section

variable (heap : Nat) (data : List UInt8)

def parseTypes : Nat → Nat → WasmParts → WasmM WasmParts
  | 0, _, parts => pure parts
  | n + 1, offset, parts =>
    if data[offset]? = some 0x60 then do
      let (paramCount, offset) ← leb data "Failed to read param count" (offset + 1)
      let offset ← advance offset paramCount
      let (retCount, offset) ← leb data "Failed to read ret count" offset
      let offset ← advance offset retCount
      parseTypes n offset { parts with
        typeSigs := parts.typeSigs ++ [(paramCount, retCount)] }
    else .error (.refused "Invalid type form")

def parseImports : Nat → Nat → WasmParts → WasmM WasmParts
  | 0, _, parts => pure parts
  | n + 1, offset, parts => do
      let (moduleName, offset) ← readName data "Failed to read mod length"
        "Invalid module name" offset
      let (fieldName, offset) ← readName data "Failed to read field length"
        "Invalid field name" offset
      let kind ← dataAt data offset
      if kind = 0x00 then do
        let (typeIdx, offset) ← leb data "Failed to read type index" (offset + 1)
        parseImports n offset { parts with
          functions := parts.functions ++ [.imported moduleName fieldName typeIdx] }
      else if kind = 0x01 then do
        let _ ← dataAt data (offset + 1)
        let (_, offset) ← leb data "Failed to read table min" (offset + 2)
        parseImports n offset parts
      else if kind = 0x02 then do
        let _ ← dataAt data (offset + 1)
        let (min, offset) ← leb data "Failed to read memory min" (offset + 2)
        parseImports n offset { parts with memorySizePages := min }
      else do
        let _ ← dataAt data (offset + 1)
        let _ ← dataAt data (offset + 2)
        parseImports n (offset + 3) parts

def parseFunctions : Nat → Nat → WasmParts → WasmM WasmParts
  | 0, _, parts => pure parts
  | n + 1, offset, parts => do
      let (typeIdx, offset) ← leb data "Failed to read type index" offset
      parseFunctions n offset { parts with internalTypes := parts.internalTypes ++ [typeIdx] }

def parseMemories : Nat → Nat → WasmParts → WasmM WasmParts
  | 0, _, parts => pure parts
  | n + 1, offset, parts => do
      let flags ← dataAt data offset
      let (min, offset) ← leb data "Failed to read memory min" (offset + 1)
      if flags &&& 1 ≠ 0 then do
        let (_, offset) ← leb data "Failed to read memory max" offset
        parseMemories n offset { parts with memorySizePages := min }
      else parseMemories n offset { parts with memorySizePages := min }

/-- The names `_start` and `main`. -/
def isStartName (name : List UInt8) : Bool :=
  name = [0x5F, 0x73, 0x74, 0x61, 0x72, 0x74] || name = [0x6D, 0x61, 0x69, 0x6E]

def parseExports : Nat → Nat → WasmParts → WasmM WasmParts
  | 0, _, parts => pure parts
  | n + 1, offset, parts => do
      let (name, offset) ← readName data "Failed to read export name length"
        "Invalid export name" offset
      let kind ← dataAt data offset
      let (idx, offset) ← leb data "Failed to read export index" (offset + 1)
      parseExports n offset
        (if kind = 0x00 ∧ isStartName name then { parts with startFuncIdx := some idx }
        else parts)

def parseLocals : Nat → Nat → List WasmLocalDecl → WasmM (List WasmLocalDecl × Nat)
  | 0, offset, decls => pure (decls, offset)
  | n + 1, offset, decls => do
      let (count, offset) ← leb data "Failed to read local count" offset
      let valType ← dataAt data offset
      parseLocals n (offset + 1) (decls ++ [⟨count % 2 ^ 32, valType⟩])

def parseCodes : Nat → Nat → WasmParts → WasmM WasmParts
  | 0, _, parts => pure parts
  | n + 1, offset, parts => do
      let (bodySize, offset) ← leb data "Failed to read body size" offset
      let bodyEnd ← advance offset bodySize
      let (localsCount, offset) ← leb data "Failed to read locals count" offset
      let (decls, offset) ← parseLocals data localsCount offset []
      if bodyEnd < offset then .error .fault
      else do
        requestBytes heap (bodyEnd - offset)
        let code ← dataRange data offset (bodyEnd - offset)
        parseCodes n bodyEnd { parts with codeBodies := parts.codeBodies ++ [(decls, code)] }

def parseDatas : Nat → Nat → WasmParts → WasmM WasmParts
  | 0, _, parts => pure parts
  | n + 1, offset, parts => do
      let (_, offset) ← leb data "Failed to read data flags" offset
      let opcode ← dataAt data offset
      if opcode ≠ 0x41 then
        .error (.refused "Only i32.const offset is supported in data section")
      else do
        let (memOff, offset) ← lebSigned data "Failed to read offset value" (offset + 1)
        let opcode ← dataAt data offset
        if opcode ≠ 0x0B then
          .error (.refused "Expected end opcode after offset expression")
        else do
          let (dataLen, offset) ← leb data "Failed to read data segment length" (offset + 1)
          requestBytes heap dataLen
          let segment ← dataRange data offset dataLen
          parseDatas n (offset + dataLen) { parts with
            dataSegments := parts.dataSegments ++ [(memOff, segment)] }

/-- A section whose contents begin at `offset`. -/
def parseSection (id : UInt8) (offset : Nat) (parts : WasmParts) : WasmM WasmParts :=
  if id = 1 then do
    let (count, offset) ← leb data "Failed to read type count" offset
    parseTypes data count offset parts
  else if id = 2 then do
    let (count, offset) ← leb data "Failed to read import count" offset
    parseImports data count offset parts
  else if id = 3 then do
    let (count, offset) ← leb data "Failed to read func count" offset
    parseFunctions data count offset parts
  else if id = 5 then do
    let (count, offset) ← leb data "Failed to read memory count" offset
    parseMemories data count offset parts
  else if id = 7 then do
    let (count, offset) ← leb data "Failed to read export count" offset
    parseExports data count offset parts
  else if id = 8 then do
    let (idx, _) ← leb data "Failed to read start index" offset
    pure { parts with startFuncIdx := some idx }
  else if id = 10 then do
    let (count, offset) ← leb data "Failed to read code count" offset
    parseCodes heap data count offset parts
  else if id = 11 then do
    let (count, offset) ← leb data "Failed to read data count" offset
    parseDatas heap data count offset parts
  else pure parts

/-- The loop over the sections; every section takes two bytes at least, so the number
of bytes bounds the rounds. -/
def parseSections : Nat → Nat → WasmParts → WasmM WasmParts
  | 0, _, parts => pure parts
  | rounds + 1, offset, parts =>
    match data[offset]? with
    | none => pure parts
    | some id => do
        let (secLen, offset) ← leb data "Failed to read section length" (offset + 1)
        let secEnd ← advance offset secLen
        if data.length < secEnd then .error (.refused "Section length out of bounds")
        else do
          let parts ← parseSection heap data id offset parts
          parseSections rounds secEnd parts

end

/-! The instance -/

structure WasmInstance where
  memory : List UInt8
  functions : List WasmFunction
  typeSigs : List (Nat × Nat)
  startFuncIdx : Option Nat

def placeSegments : List (UInt64 × List UInt8) → List UInt8 → WasmM (List UInt8)
  | [], memory => pure memory
  | (memOff, segment) :: rest, memory => do
      let stop ← advance memOff.toNat segment.length
      if memory.length < stop then .error (.refused "Data segment exceeds memory boundary")
      else
        placeSegments rest (memory.take memOff.toNat ++ segment ++ memory.drop stop)

def instantiate (heap : Nat) (parts : WasmParts) : WasmM WasmInstance :=
  if parts.internalTypes.length ≠ parts.codeBodies.length then
    .error (.refused "Function type / code body count mismatch")
  else if 2 ^ 64 ≤ parts.memorySizePages * 64 * 1024 then .error .fault
  else do
    let bodies := (parts.internalTypes.zip parts.codeBodies).map fun (typeIdx, decls, code) =>
      WasmFunction.internal typeIdx decls code
    requestBytes heap (parts.memorySizePages * 64 * 1024)
    let memory ← placeSegments parts.dataSegments
      (List.replicate (parts.memorySizePages * 64 * 1024) 0)
    pure ⟨memory, parts.functions ++ bodies, parts.typeSigs, parts.startFuncIdx⟩

/-- `parse_wasm` -/
def parseWasm (heap : Nat) (data : List UInt8) : WasmM WasmInstance :=
  if data.length < 8 then .error (.refused "Binary too small")
  else if data.take 4 ≠ [0x00, 0x61, 0x73, 0x6D] then .error (.refused "Invalid magic header")
  else if (data.drop 4).take 4 ≠ [1, 0, 0, 0] then .error (.refused "Unsupported WASM version")
  else do
    let parts ← parseSections heap data data.length 8 ⟨[], 0, [], none, [], [], []⟩
    instantiate heap parts

end ZiqaKernel
