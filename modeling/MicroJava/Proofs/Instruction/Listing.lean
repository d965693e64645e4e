import MicroJava.Proofs.Instruction.Partition
import MicroJava.Proofs.Instruction.Text

/-! # What a listing keeps

The text of a listing can be read back. Its first line tells the sizes and the entry of `main`, and
every line that starts with a digit tells an address and the instruction there. The bytes of an
instruction follow from it and from the address where the next one starts. Only the size byte of a
word array is not shown: it may be any byte but zero. -/

namespace MicroJava

/-! ## Lines -/

namespace Text

/-- The lines that start with a digit. -/
def numberedLines (cs : List Char) : List (List Char) :=
  (cs.splitOn '\n').filter (·.head?.any Char.isDigit)

theorem numberedLines_of_digit {s : String} (hs : OneLine s)
    (hfirst : s.toList.head?.any Char.isDigit = true) (rest : List Char) :
    numberedLines (s.toList ++ '\n' :: rest) = s.toList :: numberedLines rest := by
  rw [numberedLines, List.splitOn_append_cons_self_of_not_mem hs, List.filter_cons, if_pos hfirst]
  rfl

theorem numberedLines_of_not_digit {s : String} (hs : OneLine s)
    (hfirst : s.toList.head?.any Char.isDigit = false) (rest : List Char) :
    numberedLines (s.toList ++ '\n' :: rest) = numberedLines rest := by
  rw [numberedLines, List.splitOn_append_cons_self_of_not_mem hs, List.filter_cons, hfirst]
  rfl

end Text

namespace ListingLine

open Text (OneLine numberedLines)

def marker (isTarget : Bool) : String := if isTarget then " ► " else "   "

/-- A line without its heading and without the line break. -/
def body (line : ListingLine) : String :=
  Decimal.padded 4 line.address ++ marker line.isTarget ++ line.instruction.text

theorem render_eq (line : ListingLine) : line.render = line.heading ++ (line.body ++ "\n") := by
  simp only [render, body, marker, String.append_assoc]

theorem oneLine_body (line : ListingLine) : OneLine line.body := by
  have hmarker : OneLine (marker line.isTarget) := by
    cases line.isTarget <;> decide
  exact .append (.append (Text.oneLine_padded 4 line.address) hmarker)
    (Instruction.oneLine_text line.instruction)

theorem toList_body (line : ListingLine) : line.body.toList =
    (Decimal.padded 4 line.address).toList ++
      ((marker line.isTarget).toList ++ line.instruction.text.toList) := by
  rw [body, String.toList_append, String.toList_append, List.append_assoc]

theorem isDigit_head_body (line : ListingLine) :
    line.body.toList.head?.any Char.isDigit = true := by
  rw [toList_body]
  cases hcs : (Decimal.padded 4 line.address).toList with
  | nil => exact absurd hcs (Decimal.padded_ne_nil 4 line.address)
  | cons c cs =>
      have hdigit : c.isDigit := Decimal.isDigit_of_mem_padded (hcs ▸ List.mem_cons_self ..)
      exact hdigit

theorem numberedLines_heading (line : ListingLine) (rest : List Char) :
    numberedLines (line.heading.toList ++ rest) = numberedLines rest := by
  have hmain : "main:\n" = "main:" ++ "\n" := by simp
  have hrule : "      ┌──────────────────────────────────\n" =
      "      ┌──────────────────────────────────" ++ "\n" := by simp
  rw [heading]
  split
  · rw [hmain, String.toList_append, List.append_assoc]
    exact Text.numberedLines_of_not_digit (by decide) (by decide) rest
  · split
    · rw [hrule, String.toList_append, List.append_assoc]
      exact Text.numberedLines_of_not_digit (by decide) (by decide) rest
    · rfl

theorem numberedLines_render (line : ListingLine) (rest : List Char) :
    numberedLines (line.render.toList ++ rest) = line.body.toList :: numberedLines rest := by
  have hbreak : "\n".toList = ['\n'] := rfl
  rw [render_eq, String.toList_append, String.toList_append, hbreak, List.append_assoc,
    List.append_assoc, numberedLines_heading]
  exact Text.numberedLines_of_digit line.oneLine_body line.isDigit_head_body rest

end ListingLine

/-! ## Reading a listing -/

namespace Listing

/-- The lines that start with an address. -/
def instructionLines (text : String) : List String :=
  (Text.numberedLines text.toList).map String.ofList

/-- The address and the instruction in a line. -/
def readInstruction (line : String) : Nat × Option Instruction :=
  (Decimal.value (line.toList.takeWhile Char.isDigit),
    Instruction.ofWords (Text.words (String.ofList ((line.toList.dropWhile Char.isDigit).drop 3))))

theorem readInstruction_body (line : ListingLine) :
    readInstruction line.body = (line.address, some line.instruction) := by
  have hdigits : ∀ c ∈ (Decimal.padded 4 line.address).toList, c.isDigit := fun _ hc =>
    Decimal.isDigit_of_mem_padded hc
  have htake : line.body.toList.takeWhile Char.isDigit = (Decimal.padded 4 line.address).toList := by
    rw [ListingLine.toList_body, List.takeWhile_append_of_pos hdigits]
    cases line.isTarget <;> exact List.append_nil _
  have hdrop : (line.body.toList.dropWhile Char.isDigit).drop 3 = line.instruction.text.toList := by
    rw [ListingLine.toList_body, List.dropWhile_append_of_pos hdigits]
    cases line.isTarget <;> rfl
  rw [readInstruction, htake, hdrop, String.ofList_toList, Instruction.ofWords_text]
  exact congrArg (·, some line.instruction) (Decimal.number_padded 4 line.address)

/-- The first line. -/
def headerLine (l : Listing) : String :=
  "; code " ++ Decimal.ofNat l.codeSize ++ " bytes, data " ++ Decimal.ofNat l.dataSize.toNat ++
    " words, main at " ++ Decimal.padded 4 l.mainPc.toNat

theorem words_headerLine (l : Listing) : Text.words l.headerLine =
    [";", "code", Decimal.ofNat l.codeSize, "bytes,", "data", Decimal.ofNat l.dataSize.toNat,
      "words,", "main", "at", Decimal.padded 4 l.mainPc.toNat] := by
  rw [headerLine, Text.words_joined _ _ (by decide) (by decide),
    Text.words_joined _ _ (by decide) (by decide), Text.words_append_of_last (by decide),
    Text.words_ofNat, Text.words_ofNat, Text.words_padded]
  rfl

theorem oneLine_headerLine (l : Listing) : Text.OneLine l.headerLine :=
  .append (.append (.append (.append (.append (by decide) (Text.oneLine_ofNat l.codeSize)) (by decide))
    (Text.oneLine_ofNat l.dataSize.toNat)) (by decide)) (Text.oneLine_padded 4 l.mainPc.toNat)

/-- The sizes of the code and of the data and the entry, as the words of the first line tell them.
-/
def ofHeaderWords : List String → Option (Nat × UInt16 × UInt16)
  | [";", "code", size, "bytes,", "data", data, "words,", "main", "at", pc] =>
      some (Decimal.number size, UInt16.ofNat (Decimal.number data),
        UInt16.ofNat (Decimal.number pc))
  | _ => none

/-- The sizes of the code and of the data and the entry in a text. -/
def readHeader (text : String) : Option (Nat × UInt16 × UInt16) :=
  ofHeaderWords (Text.words (String.ofList (text.toList.takeWhile (· ≠ '\n'))))

theorem toList_render (l : Listing) : l.render.toList =
    l.headerLine.toList ++ '\n' :: l.lines.flatMap (·.render.toList) := by
  have hlines : ∀ (lines : List ListingLine) (out : String),
      (lines.foldl (fun out line => out ++ line.render) out).toList =
        out.toList ++ lines.flatMap (·.render.toList) := by
    intro lines
    induction lines with
    | nil => exact fun out => (List.append_nil _).symm
    | cons line lines ih =>
        intro out
        rw [List.foldl_cons, ih, String.toList_append, List.append_assoc, List.flatMap_cons]
  rw [render, hlines]
  change (l.headerLine ++ "\n").toList ++ _ = _
  rw [String.toList_append, List.append_assoc]
  rfl

theorem readHeader_render (l : Listing) :
    readHeader l.render = some (l.codeSize, l.dataSize, l.mainPc) := by
  have hfirst : l.render.toList.takeWhile (· ≠ '\n') = l.headerLine.toList := by
    rw [toList_render, List.takeWhile_append_of_pos]
    · exact List.append_nil _
    · exact fun c hc => decide_eq_true fun heq => l.oneLine_headerLine (heq ▸ hc)
  rw [readHeader, hfirst, String.ofList_toList, words_headerLine]
  calc ofHeaderWords _ = some (Decimal.number (Decimal.ofNat l.codeSize),
        UInt16.ofNat (Decimal.number (Decimal.ofNat l.dataSize.toNat)),
        UInt16.ofNat (Decimal.number (Decimal.padded 4 l.mainPc.toNat))) := rfl
    _ = some (l.codeSize, l.dataSize, l.mainPc) := by
        rw [Decimal.number_ofNat, Decimal.address_number, Decimal.target_number]

theorem instructionLines_render (l : Listing) :
    instructionLines l.render = l.lines.map ListingLine.body := by
  have hlines : ∀ lines : List ListingLine, Text.numberedLines (lines.flatMap (·.render.toList)) =
      lines.map (·.body.toList) := by
    intro lines
    induction lines with
    | nil => rfl
    | cons line lines ih =>
        rw [List.flatMap_cons, ListingLine.numberedLines_render, ih, List.map_cons]
  have hheader : l.headerLine.toList.head?.any Char.isDigit = false := by
    simp [headerLine]
  rw [instructionLines, toList_render, Text.numberedLines_of_not_digit l.oneLine_headerLine hheader,
    hlines, List.map_map]
  exact List.map_congr_left fun line _ => String.ofList_toList

/-! ## Targets -/

end Listing

namespace Instruction

/-- The instruction jumps to the address or calls it. -/
def GoesTo (i : Instruction) (pc : Nat) : Prop :=
  ∃ target : UInt16, target.toNat = pc ∧
    (i = .jump target ∨ (∃ rel, i = .jumpIf rel target) ∨ i = .call target)

theorem goesTo_iff {i : Instruction} {pc : Nat} :
    i.GoesTo pc ↔ ∃ target, i.target? = some target ∧ target.toNat = pc := by
  constructor
  · rintro ⟨target, hpc, rfl | ⟨rel, rfl⟩ | rfl⟩ <;> exact ⟨target, rfl, hpc⟩
  · rintro ⟨target, htarget, hpc⟩
    refine ⟨target, hpc, ?_⟩
    cases i <;> simp_all [target?]

end Instruction

namespace Listing

/-- Adds the address that an instruction goes to. -/
def mark (found : Std.TreeSet Nat) (op : Nat × Instruction) : Std.TreeSet Nat :=
  match op.2.target? with
  | some t => found.insert t.toNat
  | none => found

theorem mem_mark {found : Std.TreeSet Nat} {op : Nat × Instruction} {pc : Nat} :
    pc ∈ mark found op ↔ pc ∈ found ∨ op.2.GoesTo pc := by
  rw [Instruction.goesTo_iff, mark]
  cases op.2.target? with
  | none => simp
  | some target =>
      rw [Std.TreeSet.mem_insert, Nat.compare_eq_eq, or_comm]
      simp

theorem mem_foldl_mark (ops : List (Nat × Instruction)) (found : Std.TreeSet Nat) (pc : Nat) :
    pc ∈ ops.foldl mark found ↔ pc ∈ found ∨ ∃ op ∈ ops, op.2.GoesTo pc := by
  induction ops generalizing found with
  | nil => simp
  | cons op ops ih => rw [List.foldl_cons, ih, mem_mark, List.exists_mem_cons_iff, or_assoc]

theorem contains_targets (ops : Array (Nat × Instruction)) (pc : Nat) :
    (targets ops).contains pc = true ↔ ∃ op ∈ ops.toList, op.2.GoesTo pc := by
  have hfold : targets ops = ops.toList.foldl mark ∅ := (Array.foldl_toList mark).symm
  rw [Std.TreeSet.contains_iff_mem, hfold, mem_foldl_mark]
  exact or_iff_right Std.TreeSet.not_mem_emptyc

end Listing

namespace Instruction

/-! ## The bytes behind a listing -/

theorem long_eq_encode {i : Instruction} (h : i.long.length = i.encode.length) :
    i.long = i.encode := by
  cases i with
  | load slot | store slot =>
      by_cases hslot : slot < 4
      · simp [long, encode, hslot] at h
      · simp [long, encode, hslot]
  | const value =>
      by_cases hvalue : -1 ≤ value ∧ value ≤ 5
      · rw [length_encode_const hvalue] at h
        cases h
      · exact (encode_const hvalue).symm
  | _ => rfl

theorem exists_form_of_decode {code : Array UInt8} {pc next : Nat} {i : Instruction}
    (h : decode code pc = .ok (i, next)) :
    ∃ bytes, Form bytes i ∧ next = pc + bytes.length ∧
      code.toList.drop pc = bytes ++ code.toList.drop next := by
  obtain ⟨opcode, layout, bytes, hlayout, hmakes, rfl, hcode⟩ := exists_makes_of_decode h
  refine ⟨opcode :: bytes, (row_of_ofOpcode? hlayout).form hmakes, ?_, hcode⟩
  rw [List.length_cons, Nat.add_assoc, Nat.add_comm 1]

theorem Form.newArray_word {bytes : List UInt8} (h : Form bytes (.newArray .word)) :
    ∃ size, size ≠ 0 ∧ bytes = [32, size] := by
  generalize hi : Instruction.newArray .word = i at h
  cases h with
  -- the encoding is one of these bytes: its size is one
  | short | long => exact ⟨1, by decide, hi ▸ rfl⟩
  | @newArray size hsize => exact ⟨size, hsize, rfl⟩

/-- Forms of one length are the same, except for word arrays. -/
theorem Form.unique {bytes bytes' : List UInt8} {i : Instruction} (h : Form bytes i)
    (h' : Form bytes' i) (hlength : bytes.length = bytes'.length) (hi : i ≠ .newArray .word) :
    bytes = bytes' := by
  cases h with
  | short =>
      cases h' with
      | short => rfl
      | long => exact (long_eq_encode hlength.symm).symm
      | newArray => exact absurd rfl hi
  | long =>
      cases h' with
      | short => exact long_eq_encode hlength
      | long => rfl
      | newArray => exact absurd rfl hi
  | newArray => exact absurd rfl hi

/-- The byte at `k` is the operand of an array allocation, and not zero. -/
def SizeByte (code : Array UInt8) (ops : List (Nat × Instruction)) (k : Nat) : Prop :=
  ∃ pc width size, (pc, .newArray width) ∈ ops ∧ k = pc + 1 ∧ code[k]? = some size ∧ size ≠ 0

theorem SizeByte.cons {code : Array UInt8} {ops : List (Nat × Instruction)} {k : Nat}
    (h : SizeByte code ops k) (op : Nat × Instruction) : SizeByte code (op :: ops) k := by
  obtain ⟨pc, width, size, hmem, hk, hsize⟩ := h
  exact ⟨pc, width, size, List.mem_cons_of_mem op hmem, hk, hsize⟩

/-- The instruction and the address behind it leave open no byte but the size of a word array. -/
theorem decode_agree {code code' : Array UInt8} {pc next k : Nat} {i : Instruction}
    (h : decode code pc = .ok (i, next)) (h' : decode code' pc = .ok (i, next)) (hpc : pc ≤ k)
    (hk : k < next) (ops : List (Nat × Instruction)) :
    code[k]? = code'[k]? ∨
      SizeByte code ((pc, i) :: ops) k ∧ SizeByte code' ((pc, i) :: ops) k := by
  obtain ⟨bytes, hform, hnext, hcode⟩ := exists_form_of_decode h
  obtain ⟨bytes', hform', hnext', hcode'⟩ := exists_form_of_decode h'
  obtain ⟨j, rfl⟩ := Nat.exists_eq_add_of_le hpc
  have hat : code[pc + j]? = bytes[j]? := by
    rw [← Array.getElem?_toList, ← List.getElem?_drop, hcode]
    exact List.getElem?_append_left (by omega)
  have hat' : code'[pc + j]? = bytes'[j]? := by
    rw [← Array.getElem?_toList, ← List.getElem?_drop, hcode']
    exact List.getElem?_append_left (by omega)
  rw [hat, hat']
  by_cases hi : i = .newArray .word
  · subst hi
    obtain ⟨size, hsize, rfl⟩ := hform.newArray_word
    obtain ⟨size', hsize', rfl⟩ := hform'.newArray_word
    match j with
    | 0 => exact .inl rfl
    | 1 =>
        exact .inr ⟨⟨pc, .word, size, List.mem_cons_self .., rfl, hat, hsize⟩,
          ⟨pc, .word, size', List.mem_cons_self .., rfl, hat', hsize'⟩⟩
    | j + 2 => exact .inl rfl
  · have hlength : bytes.length = bytes'.length := by omega
    exact .inl (congrArg (·[j]?) (hform.unique hform' hlength hi))

theorem Tiles.start_eq {code : Array UInt8} {pc stop : Nat} {ops : List (Nat × Instruction)}
    (h : Tiles code pc ops stop) : pc = ops.head?.elim stop Prod.fst := by
  cases h <;> rfl

/-- Two codes of the same instructions at the same addresses differ in sizes of word arrays only. -/
theorem Tiles.agree {code code' : Array UInt8} {pc stop : Nat} {ops : List (Nat × Instruction)}
    (h : Tiles code pc ops stop) (h' : Tiles code' pc ops stop) {k : Nat} (hpc : pc ≤ k)
    (hk : k < stop) :
    code[k]? = code'[k]? ∨ SizeByte code ops k ∧ SizeByte code' ops k := by
  induction h with
  | nil pc => exact absurd hk (Nat.not_lt.2 hpc)
  | @cons pc next stop i ops hd hr ih =>
      cases h' with
      | @cons _ next' _ _ _ hd' hr' =>
          -- the addresses fix how many bytes each instruction takes
          obtain rfl : next = next' := hr.start_eq.trans hr'.start_eq.symm
          by_cases hnext : k < next
          · exact decode_agree hd hd' hpc hnext ops
          · rcases ih hr' (Nat.not_lt.1 hnext) hk with heq | ⟨hsize, hsize'⟩
            · exact .inl heq
            · exact .inr ⟨hsize.cons (pc, i), hsize'.cons (pc, i)⟩

/-- The byte at `k` is a nonzero operand of an array allocation in the code. -/
def SizeByteAt (code : Array UInt8) (k : Nat) : Prop :=
  ∃ ops, decodeAll code = .ok ops ∧ SizeByte code ops.toList k

theorem tiles_of_decodeAll {code : Array UInt8} {ops : Array (Nat × Instruction)}
    (h : decodeAll code = .ok ops) : Tiles code 0 ops.toList code.size := by
  obtain ⟨found, stop, htiles, ⟨rfl, hresult⟩ | ⟨-, e, -, hresult⟩⟩ := decodeAll_cases code
  · obtain rfl := Except.ok.inj (hresult.symm.trans h)
    exact htiles
  · cases hresult.symm.trans h

/-- Codes of one size with the same instructions at the same addresses. -/
theorem decodeAll_agree {code code' : Array UInt8} {ops ops' : Array (Nat × Instruction)}
    (h : decodeAll code = .ok ops) (h' : decodeAll code' = .ok ops')
    (hops : ops.toList = ops'.toList) (hsize : code.size = code'.size) (k : Nat) :
    code[k]? = code'[k]? ∨ SizeByteAt code k ∧ SizeByteAt code' k := by
  by_cases hk : k < code.size
  · have htiles' : Tiles code' 0 ops.toList code.size := by
      rw [hops, hsize]
      exact tiles_of_decodeAll h'
    rcases (tiles_of_decodeAll h).agree htiles' (Nat.zero_le k) hk with heq | ⟨hbyte, hbyte'⟩
    · exact .inl heq
    · exact .inr ⟨⟨ops, h, hbyte⟩, ⟨ops', h', hops ▸ hbyte'⟩⟩
  · rw [Array.getElem?_eq_none (Nat.not_lt.1 hk),
      Array.getElem?_eq_none (hsize ▸ Nat.not_lt.1 hk)]
    exact .inl rfl

end Instruction

/-! ## The listing of an object file -/

namespace Listing

/-- The listing of an object file whose code consists of the instructions. -/
def ofOps (object : ObjectFile) (ops : Array (Nat × Instruction)) : Listing where
  codeSize := object.code.size
  dataSize := object.dataSize
  mainPc := object.mainPc
  lines := ops.toList.map fun op =>
    ⟨op.1, op.2, op.1 == object.mainPc.toNat, (targets ops).contains op.1⟩

theorem ofObject_eq (object : ObjectFile) :
    ofObject object = (Instruction.decodeAll object.code).map (ofOps object) := by
  unfold ofObject
  cases Instruction.decodeAll object.code <;> rfl

theorem instructionLines_ofOps (object : ObjectFile) (ops : Array (Nat × Instruction)) :
    instructionLines (ofOps object ops).render = ops.toList.map fun op =>
      Decimal.padded 4 op.1 ++ ListingLine.marker ((targets ops).contains op.1) ++ op.2.text := by
  rw [instructionLines_render, ofOps, List.map_map]
  rfl

theorem readInstruction_ofOps (object : ObjectFile) (ops : Array (Nat × Instruction)) :
    (instructionLines (ofOps object ops).render).map readInstruction =
      ops.toList.map fun op => (op.1, some op.2) := by
  rw [instructionLines_render, ofOps, List.map_map, List.map_map]
  exact List.map_congr_left fun op _ => readInstruction_body _

/-- Equal texts come from equal instructions, sizes and entries. -/
theorem render_ofOps_inj {object object' : ObjectFile} {ops ops' : Array (Nat × Instruction)}
    (h : (ofOps object ops).render = (ofOps object' ops').render) :
    object.code.size = object'.code.size ∧ object.dataSize = object'.dataSize ∧
      object.mainPc = object'.mainPc ∧ ops.toList = ops'.toList := by
  have hheader := readHeader_render (ofOps object ops)
  rw [h, readHeader_render] at hheader
  obtain ⟨hsize, hdata, hmain⟩ : object'.code.size = object.code.size ∧
      object'.dataSize = object.dataSize ∧ object'.mainPc = object.mainPc := by
    simpa [ofOps] using hheader
  have hlines := readInstruction_ofOps object ops
  rw [h, readInstruction_ofOps] at hlines
  have hinj : Function.Injective fun op : Nat × Instruction => (op.1, some op.2) := by
    rintro ⟨pc, i⟩ ⟨pc', i'⟩ heq
    simpa using heq
  exact ⟨hsize.symm, hdata.symm, hmain.symm, (hinj.list_map hlines).symm⟩

end Listing

namespace ObjectFile

open Instruction (decodeAll SizeByteAt)
open Listing (instructionLines)

/-- The text of the listing of an object file. -/
def listing (object : ObjectFile) : Except DecodeError String :=
  (Listing.ofObject object).map Listing.render

theorem listing_eq (object : ObjectFile) : object.listing =
    (decodeAll object.code).map fun ops => (Listing.ofOps object ops).render := by
  rw [listing, Listing.ofObject_eq]
  cases decodeAll object.code <;> rfl

theorem listing_eq_ok {object : ObjectFile} {text : String} : object.listing = .ok text ↔
    ∃ ops, decodeAll object.code = .ok ops ∧ (Listing.ofOps object ops).render = text := by
  rw [listing_eq]
  cases decodeAll object.code with
  | error e => simp [Except.map]
  | ok ops => simp [Except.map]

/-- There is a listing just when the code can be decoded. It has one line for each instruction, with
its address and with a mark just when something goes there. Its text tells the sizes, the entry and
all bytes but nonzero operands of array allocations. -/
theorem listing_lossless (object object' : ObjectFile) :
    ((∃ text, object.listing = .ok text) ↔ ∃ ops, decodeAll object.code = .ok ops) ∧
      (∀ text ops, object.listing = .ok text → decodeAll object.code = .ok ops →
        List.Forall₂ (fun line op => ∃ marked : Bool,
            (marked = true ↔ ∃ other ∈ ops.toList, other.2.GoesTo op.1) ∧
            line = Decimal.padded 4 op.1 ++ (if marked then " ► " else "   ") ++ op.2.text)
          (instructionLines text) ops.toList) ∧
      ∀ text, object.listing = .ok text → object'.listing = .ok text →
        object.dataSize = object'.dataSize ∧ object.mainPc = object'.mainPc ∧
          object.code.size = object'.code.size ∧
          ∀ k, object.code[k]? = object'.code[k]? ∨
            SizeByteAt object.code k ∧ SizeByteAt object'.code k := by
  refine ⟨?_, fun text ops htext hops => ?_, fun text htext htext' => ?_⟩
  · constructor
    · rintro ⟨text, htext⟩
      obtain ⟨ops, hops, -⟩ := listing_eq_ok.1 htext
      exact ⟨ops, hops⟩
    · rintro ⟨ops, hops⟩
      exact ⟨_, listing_eq_ok.2 ⟨ops, hops, rfl⟩⟩
  · obtain ⟨found, hfound, rfl⟩ := listing_eq_ok.1 htext
    obtain rfl := Except.ok.inj (hfound.symm.trans hops)
    rw [Listing.instructionLines_ofOps, List.forall₂_map_left_iff, List.forall₂_same]
    exact fun op _ => ⟨_, Listing.contains_targets found op.1, rfl⟩
  · obtain ⟨ops, hops, hrender⟩ := listing_eq_ok.1 htext
    obtain ⟨ops', hops', hrender'⟩ := listing_eq_ok.1 htext'
    obtain ⟨hsize, hdata, hmain, hsame⟩ :=
      Listing.render_ofOps_inj (hrender.trans hrender'.symm)
    exact ⟨hdata, hmain, hsize, Instruction.decodeAll_agree hops hops' hsame hsize⟩

/-- A size of seven and a size of one are not told apart. -/
theorem listing_lossless_sizes : ∃ text,
    listing ⟨1, 0, #[39, 0, 3, 32, 7]⟩ = .ok text ∧ listing ⟨1, 0, #[39, 0, 3, 32, 1]⟩ = .ok text ∧
      decodeAll #[39, 0, 3, 32, 7] = .ok #[(0, .jump 3), (3, .newArray .word)] ∧
      List.Forall₂ (fun line op => ∃ marked : Bool, (marked = true ↔ op.1 = 3) ∧
          line = Decimal.padded 4 op.1 ++ (if marked then " ► " else "   ") ++ op.2.text)
        (instructionLines text) [(0, Instruction.jump 3), (3, .newArray .word)] ∧
      SizeByteAt #[39, 0, 3, 32, 7] 4 ∧ SizeByteAt #[39, 0, 3, 32, 1] 4 := by
  have hlisting : listing ⟨1, 0, #[39, 0, 3, 32, 7]⟩ = .ok ("; code 5 bytes, data 1 words, " ++
      "main at 0000\nmain:\n0000   JMP         → 0003\n" ++
      "      ┌──────────────────────────────────\n0003 ► NEWARRAY    word\n") := by decide +kernel
  have hlisting' : listing ⟨1, 0, #[39, 0, 3, 32, 1]⟩ = .ok ("; code 5 bytes, data 1 words, " ++
      "main at 0000\nmain:\n0000   JMP         → 0003\n" ++
      "      ┌──────────────────────────────────\n0003 ► NEWARRAY    word\n") := by decide +kernel
  have hops : decodeAll #[39, 0, 3, 32, 7] = .ok #[(0, .jump 3), (3, .newArray .word)] := by decide
  obtain ⟨-, hlines, hbytes⟩ :=
    listing_lossless ⟨1, 0, #[39, 0, 3, 32, 7]⟩ ⟨1, 0, #[39, 0, 3, 32, 1]⟩
  refine ⟨_, hlisting, hlisting', hops, ?_, ?_⟩
  · refine (hlines _ _ hlisting hops).imp ?_
    rintro line ⟨pc, i⟩ ⟨marked, hmarked, hline⟩
    refine ⟨marked, hmarked.trans ?_, hline⟩
    simp [Instruction.goesTo_iff, Instruction.target?, eq_comm]
  · obtain ⟨-, -, -, hall⟩ := hbytes _ hlisting hlisting'
    exact (hall 4).resolve_left (by decide)

end ObjectFile

end MicroJava
