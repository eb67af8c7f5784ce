import Mathlib.Data.List.Forall2
import SheetPackages.Proofs.Json.Written

/-!
# Reading written JSON

An indented JSON text without numerals spells exactly one document, the one that says what the value
says. Blanks are skipped, quoted texts are read as the texts that were quoted, and every container
is closed by its own bracket. Numerals and the compact form are not described.
-/

namespace SheetPackages

/-! ## Bytes of characters -/

theorem ByteArray.toList_loop (bytes : ByteArray) (i : Nat) (seen : List UInt8) :
    ByteArray.toList.loop bytes i seen = seen.reverse ++ bytes.data.toList.drop i := by
  fun_induction ByteArray.toList.loop bytes i seen with
  | case1 i seen h ih =>
    have hi : i < bytes.data.toList.length := by simpa using h
    rw [ih, List.drop_eq_getElem_cons hi]
    simp [ByteArray.get!, h]
  | case2 i seen h =>
    rw [List.drop_eq_nil_of_le (by simpa using Nat.le_of_not_lt h), List.append_nil]

theorem ByteArray.toList_eq (bytes : ByteArray) : bytes.toList = bytes.data.toList := by
  rw [ByteArray.toList, ByteArray.toList_loop]
  rfl

namespace Json

/-- The bytes of some characters in UTF-8. -/
def encoded (chars : List Char) : List UInt8 :=
  chars.flatMap String.utf8EncodeChar

theorem encoded_append (s t : List Char) : encoded (s ++ t) = encoded s ++ encoded t :=
  List.flatMap_append

theorem toByteArray_eq (s : String) : s.toByteArray = ⟨(encoded s.toList).toArray⟩ := by
  rw [← String.utf8Encode_toList, List.utf8Encode, encoded]
  apply ByteArray.ext
  apply Array.toList_inj.mp
  rw [List.toList_data_toByteArray]

theorem toList_toUTF8 (s : String) : s.toUTF8.toList = encoded s.toList := by
  rw [String.toUTF8_eq_toByteArray, ByteArray.toList_eq, toByteArray_eq]

theorem fromUTF8?_encoded (s : String) :
    String.fromUTF8? ⟨(encoded s.toList).toArray⟩ = some s := by
  rw [← toByteArray_eq, String.fromUTF8?, dif_pos s.isValidUTF8]
  rfl

/-! ## Quoted texts -/

open Lexer (Gathered quotedText)

namespace Lexer.Gathered

variable {g : Gathered}

/-- What is gathered, with some more bytes behind it. -/
def followed (g : Gathered) (bytes : List UInt8) : Gathered :=
  { g with bytes := bytes.reverse ++ g.bytes }

theorem followed_followed (s t : List UInt8) :
    (g.followed s).followed t = g.followed (s ++ t) := by
  simp [followed]

theorem settle_of_high (h : g.high = none) : g.settle = g := by
  rw [settle, if_neg (by rw [h]; decide)]

theorem byte_of_high (h : g.high = none) (b : UInt8) : g.byte b = g.followed [b] := by
  rw [byte, settle_of_high h]
  rfl

theorem unit_of_high (h : g.high = none) {c : Char} (hc : c.toNat < 0xD800) :
    g.unit c.toNat = g.followed (String.utf8EncodeChar c) := by
  rw [unit, if_neg (by omega), settle_of_high h]
  dsimp only
  rw [if_neg (by omega), scalar, Char.ofNat_toNat]
  rfl

end Lexer.Gathered

variable {g : Gathered}

theorem quotedText_closed (g : Gathered) (rest : List UInt8) :
    quotedText g (0x22 :: rest) = some (g.text, rest) := by
  unfold quotedText
  rw [if_pos rfl]

theorem quotedText_short {e b : UInt8} (hother : e ≠ 0x75) (hb : Lexer.escaped? e = some b)
    (g : Gathered) (rest : List UInt8) :
    quotedText g (0x5C :: e :: rest) = quotedText (g.byte b) rest := by
  conv_lhs => unfold quotedText
  simp [hother, hb]

theorem quotedText_numbered {x y z w : UInt8} {n : Nat}
    (hn : Text.hexNumber? ([x, y, z, w].map fun b ↦ Char.ofNat b.toNat) = some n)
    (g : Gathered) (rest : List UInt8) :
    quotedText g (0x5C :: 0x75 :: x :: y :: z :: w :: rest) = quotedText (g.unit n) rest := by
  conv_lhs => unfold quotedText
  rw [List.map_cons, List.map_cons, List.map_cons, List.map_singleton] at hn
  simp [hn]

/-- Bytes that stand for themselves inside a quoted text. -/
def Inert (b : UInt8) : Prop :=
  b ≠ 0x22 ∧ b ≠ 0x5C ∧ ¬b < 0x20

theorem quotedText_cons {b : UInt8} (h : Inert b) (g : Gathered) (rest : List UInt8) :
    quotedText g (b :: rest) = quotedText (g.byte b) rest := by
  obtain ⟨hquote, hslash, hlow⟩ := h
  conv_lhs => unfold quotedText
  simp [hquote, hslash, hlow]

theorem inert_of_le {b : UInt8} (h : 0x80 ≤ b) : Inert b := by
  refine ⟨?_, ?_, UInt8.not_lt.mpr (UInt8.le_trans (by decide) h)⟩ <;>
    · rintro rfl
      exact absurd h (by decide)

theorem inert_of_isPlain {c : Char} (h : IsPlain c) :
    ∀ b ∈ String.utf8EncodeChar c, Inert b := by
  have hhigh (n : Nat) (hle : 0x80 ≤ n) (hlt : n < 0x100) : Inert (UInt8.ofNat n) := by
    apply inert_of_le
    rw [UInt8.le_iff_toNat_le, UInt8.toNat_ofNat_of_lt' hlt]
    exact hle
  have hmax : c.val.toNat < 0x110000 := by
    have := c.valid
    rw [UInt32.isValidChar, Nat.isValidChar] at this
    omega
  intro b hb
  unfold String.utf8EncodeChar at hb
  dsimp only at hb
  split at hb
  · next hascii =>
    obtain rfl := List.mem_singleton.mp hb
    have hvalue : (UInt8.ofNat c.val.toNat).toNat = c.toNat :=
      UInt8.toNat_ofNat_of_lt' (Nat.lt_of_le_of_lt hascii (by decide))
    refine ⟨fun heq ↦ h.1 ?_, fun heq ↦ h.2.1 ?_, fun hlow ↦ ?_⟩
    · rw [heq] at hvalue
      exact Char.toNat_inj.mp hvalue.symm
    · rw [heq] at hvalue
      exact Char.toNat_inj.mp hvalue.symm
    · rw [UInt8.lt_iff_toNat_lt, hvalue] at hlow
      exact absurd h.2.2 (Nat.not_le.mpr hlow)
  split at hb
  · simp only [List.mem_cons, List.not_mem_nil, or_false] at hb
    rcases hb with rfl | rfl <;> exact hhigh _ (by omega) (by omega)
  split at hb
  · simp only [List.mem_cons, List.not_mem_nil, or_false] at hb
    rcases hb with rfl | rfl | rfl <;> exact hhigh _ (by omega) (by omega)
  · simp only [List.mem_cons, List.not_mem_nil, or_false] at hb
    rcases hb with rfl | rfl | rfl | rfl <;> exact hhigh _ (by omega) (by omega)

theorem quotedText_inert (hg : g.high = none) {bytes : List UInt8} (h : ∀ b ∈ bytes, Inert b)
    (rest : List UInt8) : quotedText g (bytes ++ rest) = quotedText (g.followed bytes) rest := by
  induction bytes generalizing g with
  | nil => rfl
  | cons b more ih =>
    obtain ⟨hb, hmore⟩ := List.forall_mem_cons.mp h
    rw [List.cons_append, quotedText_cons hb, Gathered.byte_of_high hg,
      ih (g := g.followed [b]) hg hmore, Gathered.followed_followed]
    rfl

/-- The escape of a character is read as that character. -/
def readsEscape (c : Char) : Bool :=
  match encoded (escape c) with
  | [0x5C, e] => e != 0x75 && (Lexer.escaped? e).map ([·]) == some (String.utf8EncodeChar c)
  | [0x5C, 0x75, x, y, z, w] =>
    Text.hexNumber? ([x, y, z, w].map fun b ↦ Char.ofNat b.toNat) == some c.toNat &&
      c.toNat < 0xD800
  | _ => false

theorem readsEscape_special : ∀ c ∈ special, readsEscape c = true := by
  have hall : special.all readsEscape = true := by decide +kernel
  exact List.all_eq_true.mp hall

theorem quotedText_special (hg : g.high = none) {c : Char} (h : readsEscape c = true)
    (rest : List UInt8) : quotedText g (encoded (escape c) ++ rest) =
      quotedText (g.followed (String.utf8EncodeChar c)) rest := by
  unfold readsEscape at h
  split at h
  · next e hchars =>
    rw [Bool.and_eq_true, bne_iff_ne, beq_iff_eq, Option.map_eq_some_iff] at h
    obtain ⟨hother, b, hb, hbytes⟩ := h
    rw [hchars, ← hbytes, ← Gathered.byte_of_high hg]
    exact quotedText_short hother hb g rest
  · next x y z w hchars =>
    rw [Bool.and_eq_true, beq_iff_eq, decide_eq_true_iff] at h
    obtain ⟨hnumber, hlow⟩ := h
    rw [hchars, ← Gathered.unit_of_high hg hlow]
    exact quotedText_numbered hnumber g rest
  · cases h

theorem quotedText_escape (hg : g.high = none) (c : Char) (rest : List UInt8) :
    quotedText g (encoded (escape c) ++ rest) =
      quotedText (g.followed (String.utf8EncodeChar c)) rest := by
  by_cases h : IsPlain c
  · rw [escape_of_isPlain h, encoded, List.flatMap_singleton]
    exact quotedText_inert hg (inert_of_isPlain h) rest
  · exact quotedText_special hg (readsEscape_special c (mem_special h)) rest

theorem quotedText_escapes (hg : g.high = none) (chars : List Char) (rest : List UInt8) :
    quotedText g (encoded (chars.flatMap escape) ++ rest) =
      quotedText (g.followed (encoded chars)) rest := by
  induction chars generalizing g with
  | nil => rfl
  | cons c more ih =>
    rw [List.flatMap_cons, encoded_append, List.append_assoc, quotedText_escape hg,
      ih (g := g.followed _) hg, Gathered.followed_followed]
    rfl

theorem text_followed (s : String) : (Gathered.followed {} (encoded s.toList)).text = some s := by
  have hbytes : (Gathered.followed {} (encoded s.toList)).bytes.reverse = encoded s.toList := by
    simp [Gathered.followed]
  rw [Gathered.text, Gathered.settle_of_high rfl, hbytes, fromUTF8?_encoded]
  rfl

/-- A quoted text is read as the text that was quoted, whatever follows. -/
theorem quotedText_quoted (s : String) (rest : List UInt8) :
    quotedText {} (encoded (s.toList.flatMap escape) ++ 0x22 :: rest) = some (some s, rest) := by
  rw [quotedText_escapes rfl, quotedText_closed, text_followed]

/-! ## Words -/

/-- Some characters spell some words, whatever stands behind them. -/
def Spells (chars : List Char) (ws : List Word) : Prop :=
  ∀ rest, Lexer.words (encoded chars ++ rest) = (Lexer.words rest).map (ws ++ ·)

theorem words_of_isBlank {b : UInt8} (h : Lexer.isBlank b = true) (rest : List UInt8) :
    Lexer.words (b :: rest) = Lexer.words rest := by
  rw [Lexer.words, if_pos h]

theorem words_of_word {b : UInt8} {rest after : List UInt8} {w : Word}
    (hblank : Lexer.isBlank b = false) (h : Lexer.word b rest = some (w, after)) :
    Lexer.words (b :: rest) = (Lexer.words after).map (w :: ·) := by
  rw [Lexer.words, if_neg (ne_true_of_eq_false hblank)]
  split
  · next hnone =>
    rw [h] at hnone
    cases hnone
  · next hsome =>
    cases h.symm.trans hsome
    rfl

namespace Spells

theorem nil : Spells [] [] := by
  intro rest
  simp [encoded]

theorem append {s t : List Char} {vs ws : List Word} (hs : Spells s vs) (ht : Spells t ws) :
    Spells (s ++ t) (vs ++ ws) := by
  intro rest
  rw [encoded_append, List.append_assoc, hs, ht, Option.map_map]
  congr 1
  funext more
  exact (List.append_assoc ..).symm

theorem blank {c : Char} {b : UInt8} (hbytes : String.utf8EncodeChar c = [b])
    (h : Lexer.isBlank b = true) : Spells [c] [] := by
  intro rest
  rw [encoded, List.flatMap_singleton, hbytes, List.singleton_append, words_of_isBlank h]
  simp

/-- The bytes of some characters are those of one word. -/
theorem word {chars : List Char} {b : UInt8} {bytes : List UInt8} {w : Word}
    (hchars : encoded chars = b :: bytes) (hblank : Lexer.isBlank b = false)
    (h : ∀ rest, Lexer.word b (bytes ++ rest) = some (w, rest)) : Spells chars [w] := by
  intro rest
  rw [hchars, List.cons_append, words_of_word hblank (h rest)]
  rfl

theorem mark {c : Char} {b : UInt8} {w : Word} (hbytes : String.utf8EncodeChar c = [b])
    (hblank : Lexer.isBlank b = false) (h : Lexer.mark? b = some w) : Spells [c] [w] := by
  refine word (by rw [encoded, List.flatMap_singleton, hbytes]) hblank fun rest ↦ ?_
  unfold Lexer.word
  rw [h]
  rfl

theorem quoted (s : String) : Spells (Json.quoted s).toList [.text (some s)] := by
  have hchars : encoded (Json.quoted s).toList =
      0x22 :: (encoded (s.toList.flatMap escape) ++ [0x22]) := by
    rw [← List.append_nil (Json.quoted s).toList, toList_quoted_append, ← List.singleton_append,
      encoded_append, encoded_append]
    rfl
  refine word hchars (by decide) fun rest ↦ ?_
  have hmark : Lexer.mark? 0x22 = none := by decide +kernel
  unfold Lexer.word
  rw [hmark, List.append_assoc, List.singleton_append, quotedText_quoted]
  rfl

theorem null : Spells "null".toList [.null] :=
  word (b := 0x6E) rfl (by decide) fun _ ↦ rfl

theorem bool (value : Bool) :
    Spells (if value then "true" else "false").toList [.bool value] := by
  cases value with
  | true => exact word (b := 0x74) rfl (by decide) fun _ ↦ rfl
  | false => exact word (b := 0x66) rfl (by decide) fun _ ↦ rfl

end Spells

/-! ## Containers -/

theorem intercalate_cons_eq {α : Type} (separator first : List α) (rest : List (List α)) :
    separator.intercalate (first :: rest) = first ++ rest.flatMap (separator ++ ·) := by
  induction rest generalizing first with
  | nil => simp
  | cons next more ih =>
    rw [List.intercalate_cons_cons, ih, List.flatMap_cons, List.append_assoc, List.append_assoc]

theorem Spells.flatMap {separator : List Char} (hseparator : Spells separator [.comma])
    {lines : List (List Char)} {wordLists : List (List Word)}
    (h : List.Forall₂ Spells lines wordLists) :
    Spells (lines.flatMap (separator ++ ·)) (wordLists.flatMap ([Word.comma] ++ ·)) := by
  induction h with
  | nil => exact nil
  | cons hline _ ih => exact (hseparator.append hline).append ih

theorem Spells.intercalate {separator : List Char} (hseparator : Spells separator [.comma])
    {lines : List (List Char)} {wordLists : List (List Word)}
    (h : List.Forall₂ Spells lines wordLists) :
    Spells (separator.intercalate lines) ([Word.comma].intercalate wordLists) := by
  cases h with
  | nil => exact nil
  | cons hline hmore =>
    rw [intercalate_cons_eq, intercalate_cons_eq]
    exact hline.append (hseparator.flatMap hmore)

theorem spells_lineEnd : Spells ['\n'] [] :=
  .blank (b := 0x0A) rfl (by decide)

theorem spells_deeper {indent : String} (h : Spells indent.toList []) :
    Spells (indent ++ "  ").toList [] := by
  have hspace : Spells [' '] [] := .blank (b := 0x20) rfl (by decide)
  rw [String.toList_append]
  exact h.append (hspace.append hspace)

/-- The lines of a container spell what they spell by themselves, between brackets and with commas
between them. -/
theorem spells_block {indent opening closing : String} {first last : Word} {lines : List String}
    {wordLists : List (List Word)} (hindent : Spells indent.toList [])
    (hopening : Spells opening.toList [first]) (hclosing : Spells closing.toList [last])
    (h : List.Forall₂ (fun line ws ↦ Spells line.toList ws) lines wordLists) :
    Spells (block indent opening closing lines).toList
      (first :: ([Word.comma].intercalate wordLists ++ [last])) := by
  have hcomma : Spells ",\n".toList [.comma] :=
    (Spells.mark (b := 0x2C) rfl (by decide) rfl).append spells_lineEnd
  unfold block
  split
  · next hempty =>
    subst hempty
    cases h
    rw [String.toList_append]
    exact hopening.append hclosing
  · have hlines : List.Forall₂ Spells
        (lines.map fun line ↦ (indent ++ "  " ++ line).toList) wordLists := by
      rw [List.forall₂_map_left_iff]
      refine h.imp fun line ws hline ↦ ?_
      rw [String.toList_append]
      exact (spells_deeper hindent).append hline
    have hinner := hopening.append (spells_lineEnd.append (Spells.intercalate hcomma hlines))
    have hwhole := hinner.append (spells_lineEnd.append (hindent.append hclosing))
    simpa [String.toList_append, String.toList_intercalate, Function.comp_def] using hwhole

namespace Document

mutual

/-- The words that spell a document. -/
def words : Document → List Word
  | .null => [.null]
  | .bool value => [.bool value]
  | .numeral value => [.numeral value]
  | .text value => [.text value]
  | .list items => .openList :: ([Word.comma].intercalate (itemWords items) ++ [.closeList])
  | .object members =>
    .openObject :: ([Word.comma].intercalate (memberWords members) ++ [.closeObject])

def itemWords : List Document → List (List Word)
  | [] => []
  | item :: rest => words item :: itemWords rest

def memberWords : List (Option String × Document) → List (List Word)
  | [] => []
  | (key, value) :: rest => (.text key :: .colon :: words value) :: memberWords rest

end

/-- A value is read alike in front of a list and elsewhere. -/
theorem foldlM_firstItem (d : Document) (frames : List Frame) :
    (words d).foldlM Machine.step ⟨.list [] :: frames, .firstItem⟩ =
      (words d).foldlM Machine.step ⟨.list [] :: frames, .value⟩ := by
  cases d <;> rfl

mutual

/-- The words of a document are taken for the document, wherever a value may stand. -/
theorem foldlM_words (d : Document) (frames : List Frame) :
    (words d).foldlM Machine.step ⟨frames, .value⟩ = some (Machine.accept d frames) := by
  cases d with
  | null => cases frames <;> rfl
  | bool value => cases frames <;> rfl
  | numeral value => cases frames <;> rfl
  | text value => cases frames <;> rfl
  | list items =>
    have hopened : (words (.list items)).foldlM Machine.step ⟨frames, .value⟩ =
        ([Word.comma].intercalate (itemWords items) ++ [Word.closeList]).foldlM Machine.step
          ⟨.list [] :: frames, .firstItem⟩ := by
      rw [words]
      rfl
    rw [hopened]
    cases items with
    | nil => rfl
    | cons item rest =>
      rw [itemWords, intercalate_cons_eq, List.append_assoc, List.foldlM_append,
        foldlM_firstItem, foldlM_words item]
      exact foldlM_items rest [item] frames
  | object members =>
    have hopened : (words (.object members)).foldlM Machine.step ⟨frames, .value⟩ =
        ([Word.comma].intercalate (memberWords members) ++ [Word.closeObject]).foldlM Machine.step
          ⟨.object [] none :: frames, .firstKey⟩ := by
      rw [words]
      rfl
    rw [hopened]
    cases members with
    | nil => rfl
    | cons member rest =>
      obtain ⟨key, value⟩ := member
      rw [memberWords, intercalate_cons_eq, List.append_assoc, List.foldlM_append]
      have hmember : (Word.text key :: Word.colon :: words value).foldlM Machine.step
          ⟨.object [] none :: frames, .firstKey⟩ =
            (words value).foldlM Machine.step ⟨.object [] key :: frames, .value⟩ := rfl
      rw [hmember, foldlM_words value]
      exact foldlM_members rest [(key, value)] frames

theorem foldlM_items (items sofar : List Document) (frames : List Frame) :
    ((itemWords items).flatMap ([Word.comma] ++ ·) ++ [Word.closeList]).foldlM Machine.step
      ⟨.list sofar :: frames, .separator⟩ =
        some (Machine.accept (.list (sofar.reverse ++ items)) frames) := by
  cases items with
  | nil =>
    rw [List.append_nil]
    rfl
  | cons item rest =>
    have hcomma : ([Word.comma] ++ words item).foldlM Machine.step
        ⟨.list sofar :: frames, .separator⟩ =
          (words item).foldlM Machine.step ⟨.list sofar :: frames, .value⟩ := rfl
    rw [itemWords, List.flatMap_cons, List.append_assoc, List.foldlM_append, hcomma,
      foldlM_words item]
    have hrest := foldlM_items rest (item :: sofar) frames
    rw [List.reverse_cons, List.append_assoc] at hrest
    exact hrest

theorem foldlM_members (members sofar : List (Option String × Document)) (frames : List Frame) :
    ((memberWords members).flatMap ([Word.comma] ++ ·) ++ [Word.closeObject]).foldlM Machine.step
      ⟨.object sofar none :: frames, .separator⟩ =
        some (Machine.accept (.object (sofar.reverse ++ members)) frames) := by
  cases members with
  | nil =>
    rw [List.append_nil]
    rfl
  | cons member rest =>
    obtain ⟨key, value⟩ := member
    have hmember : ([Word.comma] ++ .text key :: .colon :: words value).foldlM Machine.step
        ⟨.object sofar none :: frames, .separator⟩ =
          (words value).foldlM Machine.step ⟨.object sofar key :: frames, .value⟩ := rfl
    rw [memberWords, List.flatMap_cons, List.append_assoc, List.foldlM_append, hmember,
      foldlM_words value]
    have hrest := foldlM_members rest ((key, value) :: sofar) frames
    rw [List.reverse_cons, List.append_assoc] at hrest
    exact hrest

end

theorem ofWords_words (d : Document) : ofWords (words d) = some d := by
  rw [ofWords, foldlM_words]
  rfl

end Document

mutual

/-- The document that says what a value says. Values with numbers are left out. -/
def document? : Json → Option Document
  | .null => some .null
  | .bool value => some (.bool value)
  | .int _ => none
  | .real _ => none
  | .text s => some (.text (some s))
  | .list items => (itemDocuments? items).map .list
  | .object members => (memberDocuments? members).map .object

def itemDocuments? : List Json → Option (List Document)
  | [] => some []
  | item :: rest => do
    let here ← document? item
    return here :: (← itemDocuments? rest)

def memberDocuments? : List (String × Json) → Option (List (Option String × Document))
  | [] => some []
  | (key, value) :: rest => do
    let here ← document? value
    return (some key, here) :: (← memberDocuments? rest)

end

mutual

/-- An indented value spells the document that says what it says. -/
theorem spells_indented {j : Json} {d : Document} (h : document? j = some d) {indent : String}
    (hindent : Spells indent.toList []) : Spells (indented indent j).toList d.words := by
  cases j with
  | null =>
    cases h
    exact Spells.null
  | bool value =>
    cases h
    exact Spells.bool value
  | int n => cases h
  | real bits => cases h
  | text s =>
    cases h
    exact Spells.quoted s
  | list items =>
    obtain ⟨ds, hds, rfl⟩ := Option.map_eq_some_iff.mp h
    exact spells_block hindent (.mark (b := 0x5B) rfl (by decide) rfl)
      (.mark (b := 0x5D) rfl (by decide) rfl) (spells_indentedItems hds (spells_deeper hindent))
  | object members =>
    obtain ⟨ds, hds, rfl⟩ := Option.map_eq_some_iff.mp h
    exact spells_block hindent (.mark (b := 0x7B) rfl (by decide) rfl)
      (.mark (b := 0x7D) rfl (by decide) rfl) (spells_indentedMembers hds (spells_deeper hindent))

theorem spells_indentedItems {items : List Json} {ds : List Document}
    (h : itemDocuments? items = some ds) {indent : String} (hindent : Spells indent.toList []) :
    List.Forall₂ (fun line ws ↦ Spells line.toList ws) (indentedItems indent items)
      (Document.itemWords ds) := by
  cases items with
  | nil =>
    cases h
    exact .nil
  | cons item rest =>
    obtain ⟨here, hhere, h⟩ := Option.bind_eq_some_iff.mp h
    obtain ⟨more, hmore, h⟩ := Option.bind_eq_some_iff.mp h
    cases h
    exact .cons (spells_indented hhere hindent) (spells_indentedItems hmore hindent)

theorem spells_indentedMembers {members : List (String × Json)}
    {ds : List (Option String × Document)} (h : memberDocuments? members = some ds)
    {indent : String} (hindent : Spells indent.toList []) :
    List.Forall₂ (fun line ws ↦ Spells line.toList ws) (indentedMembers indent members)
      (Document.memberWords ds) := by
  cases members with
  | nil =>
    cases h
    exact .nil
  | cons member rest =>
    obtain ⟨key, value⟩ := member
    obtain ⟨here, hhere, h⟩ := Option.bind_eq_some_iff.mp h
    obtain ⟨more, hmore, h⟩ := Option.bind_eq_some_iff.mp h
    cases h
    refine .cons ?_ (spells_indentedMembers hmore hindent)
    have hcolon : Spells ": ".toList [.colon] :=
      (Spells.mark (b := 0x3A) rfl (by decide) rfl).append (.blank (b := 0x20) rfl (by decide))
    rw [String.toList_append, String.toList_append]
    exact ((Spells.quoted key).append hcolon).append (spells_indented hhere hindent)

end

/-- An indented text is read as the document that says what the written value says. -/
theorem ofBytes_pretty {j : Json} {d : Document} (h : document? j = some d) :
    Document.ofBytes j.pretty.toUTF8 = some d := by
  have hwords : Spells j.pretty.toList d.words := spells_indented h Spells.nil
  specialize hwords []
  rw [List.append_nil] at hwords
  rw [Document.ofBytes, toList_toUTF8, hwords, Lexer.words, Option.map_some,
    Option.bind_some, List.append_nil, Document.ofWords_words]

end Json

end SheetPackages
