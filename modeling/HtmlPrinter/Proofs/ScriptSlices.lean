import HtmlPrinter.Proofs.Escaping
import HtmlPrinter.Proofs.ScriptContent

/-!
# Guarding a script in bytes

The guard is said character by character, and a text is kept in bytes. `ScriptGuard.printSlices?`
looks for `</script` in a window of eight bytes that goes on by one byte each time, whether or not
that is inside a character, and copies slices of the text around what it finds. No window inside a
character matches, since every byte there is outside of ASCII, so what is found starts between
characters and every slice exists.
-/

namespace HtmlPrinter

private theorem utf8Bytes_eq_flatMap (text : String) :
    utf8Bytes text = text.toList.flatMap String.utf8EncodeChar := by
  rw [utf8Bytes, ← String.utf8Encode_toList, List.utf8Encode, List.toList_data_toByteArray]

private theorem length_flatMap_utf8EncodeChar (cs : List Char) :
    (cs.flatMap String.utf8EncodeChar).length = String.utf8Len cs := by
  induction cs with
  | nil => rfl
  | cons c rest ih =>
      rw [List.flatMap_cons, List.length_append, ih, String.length_utf8EncodeChar,
        String.utf8Len_cons, Nat.add_comm]

/-- The bytes from the end of some characters on are those of the characters behind. -/
theorem drop_utf8Bytes {text : String} {front back : List Char} (h : text.toList = front ++ back)
    (k : Nat) : (utf8Bytes text).drop (String.utf8Len front + k) =
      (back.flatMap String.utf8EncodeChar).drop k := by
  rw [utf8Bytes_eq_flatMap, h, List.flatMap_append, ← length_flatMap_utf8EncodeChar,
    List.drop_append, List.drop_eq_nil_of_le (Nat.le_add_right _ _), Nat.add_sub_cancel_left,
    List.nil_append]

private theorem utf8EncodeChar_of_ascii {c : Char} (hc : c.toNat < 128) :
    String.utf8EncodeChar c = [c.toUInt8] := by
  have low : c.val.toNat ≤ 127 := Nat.le_of_lt_succ hc
  rw [String.utf8EncodeChar, if_pos low]
  rfl

private theorem le_of_mem_utf8EncodeChar {c : Char} (hc : 128 ≤ c.toNat) {b : UInt8}
    (hb : b ∈ String.utf8EncodeChar c) : 128 ≤ b.toNat := by
  have high : ¬ c.val.toNat ≤ 127 := Nat.not_le.2 hc
  have sum : ∀ low offset : Nat, 128 ≤ offset → low + offset < 256 →
      128 ≤ (UInt8.ofNat (low + offset)).toNat := by
    intro low offset hoffset hbound
    rw [UInt8.toNat_ofNat', Nat.mod_eq_of_lt hbound]
    omega
  rw [String.utf8EncodeChar, if_neg high] at hb
  split at hb
  · simp only [List.mem_cons, List.not_mem_nil, or_false] at hb
    rcases hb with rfl | rfl <;> apply sum <;> omega
  · split at hb
    · simp only [List.mem_cons, List.not_mem_nil, or_false] at hb
      rcases hb with rfl | rfl | rfl <;> apply sum <;> omega
    · simp only [List.mem_cons, List.not_mem_nil, or_false] at hb
      rcases hb with rfl | rfl | rfl | rfl <;> apply sum <;> omega

private theorem toNat_lt_of_toLower {c : Char} (h : c.toLower.toNat < 128) : c.toNat < 128 := by
  rw [toNat_toLower] at h
  split at h <;> omega

private theorem toNat_toUInt8 {c : Char} (hc : c.toNat < 128) : c.toUInt8.toNat = c.toNat := by
  rw [Char.toUInt8, UInt32.toNat_toUInt8]
  exact Nat.mod_eq_of_lt (Nat.lt_trans hc (by decide))

private theorem lowerByte_toUInt8 {c : Char} (hc : c.toNat < 128) :
    lowerByte c.toUInt8 = c.toLower.toUInt8 := by
  have low : c.toLower.toNat < 128 := by
    rw [toNat_toLower]
    split <;> omega
  apply UInt8.toNat_inj.1
  rw [toNat_toUInt8 low, toNat_toLower, lowerByte]
  simp only [UInt8.le_iff_toNat_le, toNat_toUInt8 hc]
  change (if 65 ≤ c.toNat ∧ c.toNat ≤ 90 then c.toUInt8 + 32 else c.toUInt8).toNat = _
  split
  · rw [UInt8.toNat_add, toNat_toUInt8 hc]
    change (c.toNat + 32) % 256 = _
    omega
  · exact toNat_toUInt8 hc

private theorem toUInt8_inj_of_ascii {c d : Char} (hc : c.toNat < 128) (hd : d.toNat < 128) :
    c.toUInt8 = d.toUInt8 ↔ c = d := by
  constructor
  · intro h
    apply Char.toNat_inj.1
    rw [← toNat_toUInt8 hc, ← toNat_toUInt8 hd, h]
  · rintro rfl
    rfl

private theorem utf8Len_of_ascii {cs : List Char} (h : ∀ c ∈ cs, c.toNat < 128) :
    String.utf8Len cs = cs.length := by
  induction cs with
  | nil => rfl
  | cons c rest ih =>
      obtain ⟨hc, hrest⟩ := List.forall_mem_cons.1 h
      rw [← length_flatMap_utf8EncodeChar, List.flatMap_cons, utf8EncodeChar_of_ascii hc,
        List.length_append, length_flatMap_utf8EncodeChar, ih hrest, List.length_singleton,
        List.length_cons, Nat.add_comm]

private theorem lowerByte_of_le {b : UInt8} (hb : 128 ≤ b.toNat) : lowerByte b = b := by
  rw [lowerByte, if_neg]
  rintro ⟨-, hcapital⟩
  have : b.toNat ≤ 90 := UInt8.le_iff_toNat_le.1 hcapital
  omega

private theorem map_toUInt8_prefix_iff {pattern : List Char}
    (hpattern : ∀ d ∈ pattern, d.toNat < 128) (cs : List Char) :
    pattern.map Char.toUInt8 <+: (cs.flatMap String.utf8EncodeChar).map lowerByte ↔
      pattern <+: cs.map Char.toLower := by
  induction pattern generalizing cs with
  | nil => simp
  | cons d pattern ih =>
      have hd : d.toNat < 128 := hpattern d List.mem_cons_self
      have htail := ih fun x hx => hpattern x (List.mem_cons_of_mem d hx)
      cases cs with
      | nil => simp
      | cons c rest =>
          have lower := toNat_toLower c
          rw [List.flatMap_cons, List.map_append, List.map_cons, List.map_cons,
            List.cons_prefix_cons]
          by_cases hc : c.toNat < 128
          · have hlower : c.toLower.toNat < 128 := by
              rw [lower]
              split <;> omega
            rw [utf8EncodeChar_of_ascii hc, List.map_singleton, lowerByte_toUInt8 hc,
              List.singleton_append, List.cons_prefix_cons, toUInt8_inj_of_ascii hd hlower, htail]
          · -- neither the first byte nor the character is one of the pattern
            have apart : d ≠ c.toLower := by
              rintro rfl
              exact hc (toNat_lt_of_toLower hd)
            cases hbytes : String.utf8EncodeChar c with
            | nil => exact absurd hbytes String.utf8EncodeChar_ne_nil
            | cons b bytes =>
                have high : 128 ≤ b.toNat :=
                  le_of_mem_utf8EncodeChar (Nat.not_lt.1 hc) (hbytes ▸ List.mem_cons_self)
                have differs : d.toUInt8 ≠ b := by
                  rintro rfl
                  rw [toNat_toUInt8 hd] at high
                  omega
                rw [List.map_cons, List.cons_append, List.cons_prefix_cons, lowerByte_of_le high]
                simp [differs, apart]

namespace ScriptGuard

private theorem ascii_endTagMark : ∀ d ∈ endTagMark, d.toNat < 128 := by
  have table : endTagMark.all (fun d => decide (d.toNat < 128)) = true := by decide
  intro d hd
  simpa using List.all_eq_true.1 table d hd

section

variable {text : String} {front : List Char}

theorem endTagAt_iff {cs : List Char} (h : text.toList = front ++ cs) :
    endTagAt text (String.utf8Len front) = true ↔ OpensEndTag cs := by
  have bytes := drop_utf8Bytes h 0
  rw [Nat.add_zero, List.drop_zero] at bytes
  rw [endTagAt, bytes, beq_iff_eq, OpensEndTag, ← map_toUInt8_prefix_iff ascii_endTagMark,
    List.prefix_iff_eq_take, List.map_take, eq_comm]
  rfl

private theorem endTagAt_inside {c : Char} {cs : List Char} (h : text.toList = front ++ c :: cs)
    {k : Nat} (hpos : 0 < k) (hk : k < c.utf8Size) :
    endTagAt text (String.utf8Len front + k) = false := by
  have wide : 128 ≤ c.toNat := by
    by_contra hc
    have single : c.utf8Size = 1 := by
      rw [← String.length_utf8EncodeChar, utf8EncodeChar_of_ascii (Nat.not_le.1 hc)]
      rfl
    omega
  have bound : k < (String.utf8EncodeChar c).length := by
    rw [String.length_utf8EncodeChar]
    exact hk
  have high : 128 ≤ ((String.utf8EncodeChar c)[k]).toNat :=
    le_of_mem_utf8EncodeChar wide (List.getElem_mem bound)
  have bytes := drop_utf8Bytes h k
  rw [List.flatMap_cons, List.drop_append_of_le_length (Nat.le_of_lt bound),
    List.drop_eq_getElem_cons bound, List.cons_append] at bytes
  have differs : (String.utf8EncodeChar c)[k] ≠ 60 := by
    intro hb
    rw [hb] at high
    exact absurd high (by decide)
  rw [endTagAt, bytes, List.take_succ_cons, List.map_cons, lowerByte_of_le high, endTagMark,
    List.map_cons]
  simp only [beq_eq_false_iff_ne, ne_eq, List.cons.injEq, not_and]
  intro hb
  exact absurd hb differs

private theorem printSlicesFrom?_skip (last : Nat) {position count : Nat}
    (h : ∀ k < count, endTagAt text (position + k) = false) :
    printSlicesFrom? text last position = printSlicesFrom? text last (position + count) := by
  induction count with
  | zero => rfl
  | succ count ih =>
      rw [ih fun k hk => h k (Nat.lt_succ_of_lt hk), printSlicesFrom?, ← Nat.add_assoc]
      have none : endTagAt text (position + count) = false := h count (Nat.lt_succ_self count)
      by_cases fits : position + count + 8 ≤ text.utf8ByteSize
      · rw [if_pos fits, none]
        rfl
      · have beyond : ¬ position + count + 1 + 8 ≤ text.utf8ByteSize := by omega
        rw [if_neg fits, printSlicesFrom?, if_neg beyond]

private theorem printSlicesFrom?_skipChar (last : Nat) {c : Char} {cs : List Char}
    (h : text.toList = front ++ c :: cs) (hopens : ¬ OpensEndTag (c :: cs)) :
    printSlicesFrom? text last (String.utf8Len front) =
      printSlicesFrom? text last (String.utf8Len (front ++ [c])) := by
  rw [String.utf8Len_append, String.utf8Len_cons, String.utf8Len_nil, Nat.zero_add]
  apply printSlicesFrom?_skip
  intro k hk
  cases k with
  | zero => exact Bool.eq_false_iff.2 fun found => hopens ((endTagAt_iff h).1 found)
  | succ k => exact endTagAt_inside h (Nat.succ_pos k) hk

end

private theorem exists_name_of_opensEndTag {cs : List Char} (h : OpensEndTag cs) :
    ∃ name behind, cs = '<' :: '/' :: (name ++ behind) ∧ '<' ∉ name ∧
      String.utf8Len name = 6 := by
  cases cs with
  | nil => exact absurd h (by decide)
  | cons c rest =>
      obtain ⟨rfl, hrest⟩ := opensEndTag_cons.1 h
      cases rest with
      | nil => exact absurd hrest (by decide)
      | cons d rest =>
          obtain ⟨hslash, hname⟩ := List.cons_prefix_cons.1 hrest
          have solidus : ('/' : Char).isAlpha = false := by decide
          obtain rfl : d = '/' := (toLower_eq_iff solidus).1 hslash.symm
          have letters : (rest.take 6).map Char.toLower = ['s', 'c', 'r', 'i', 'p', 't'] := by
            rw [List.map_take]
            exact (List.prefix_iff_eq_take.1 hname).symm
          have ascii : ∀ x ∈ rest.take 6, x.toNat < 128 := by
            intro x hx
            have table : ['s', 'c', 'r', 'i', 'p', 't'].all
                (fun y => decide (y.toNat < 128)) = true := by
              decide
            have lowered : x.toLower ∈ ['s', 'c', 'r', 'i', 'p', 't'] :=
              letters ▸ List.mem_map_of_mem hx
            exact toNat_lt_of_toLower (by simpa using List.all_eq_true.1 table _ lowered)
          refine ⟨rest.take 6, rest.drop 6, by rw [List.take_append_drop], ?_, ?_⟩
          · intro hmem
            have lowered : Char.toLower '<' ∈ ['s', 'c', 'r', 'i', 'p', 't'] :=
              letters ▸ List.mem_map_of_mem hmem
            exact absurd lowered (by decide)
          · have count := congrArg List.length letters
            rw [List.length_map] at count
            rw [utf8Len_of_ascii ascii, count]
            rfl

private theorem guardedList_append {front : List Char} (h : '<' ∉ front) (cs : List Char) :
    guardedList (front ++ cs) = front ++ guardedList cs := by
  induction front with
  | nil => rfl
  | cons c front ih =>
      rw [List.mem_cons, not_or] at h
      have closed : ¬ OpensEndTag (c :: (front ++ cs)) :=
        fun hopens => h.1 (opensEndTag_cons.1 hopens).1.symm
      rw [List.cons_append, guardedList_of_not_opensEndTag closed, ih h.2, List.cons_append]

/-- Every slice that is printed begins and ends between characters, and together they are the
guarded text. -/
theorem printSlicesFrom?_eq_write {text : String} {front run cs : List Char}
    (h : text.toList = front ++ run ++ cs) :
    printSlicesFrom? text (String.utf8Len front) (String.utf8Len (front ++ run)) =
      some (write (String.ofList (run ++ guardedList cs))) := by
  -- `front` is written, and `run` is the slice that is still to be written
  induction hlength : cs.length using Nat.strong_induction_on generalizing front run cs with
  | _ length ih =>
  have size : text.utf8ByteSize = String.utf8Len (front ++ run) + String.utf8Len cs := by
    rw [← String.utf8Len_toList, h, String.utf8Len_append]
  by_cases hopens : OpensEndTag cs
  · obtain ⟨name, behind, rfl, hname, hsize⟩ := exists_name_of_opensEndTag hopens
    have marks : String.utf8Len ['<', '/'] = 2 := by decide
    have first : String.utf8Len (front ++ run) + 2 =
        String.utf8Len (front ++ run ++ ['<', '/']) := by
      rw [String.utf8Len_append (front ++ run), marks]
    have next : String.utf8Len (front ++ run) + 8 =
        String.utf8Len (front ++ run ++ ['<', '/'] ++ name) := by
      rw [String.utf8Len_append _ name, ← first, hsize]
    have parts : text.toList = front ++ run ++ ['<', '/'] ++ name ++ behind := by
      rw [h]
      simp
    have fits : String.utf8Len (front ++ run) + 8 ≤ text.utf8ByteSize := by
      rw [next, ← String.utf8Len_toList, parts, String.utf8Len_append _ behind]
      exact Nat.le_add_right _ _
    have plain := slice?_of_toList_eq h
    rw [← String.utf8Len_append] at plain
    have shorter : behind.length < length := by
      rw [← hlength]
      simp only [List.length_cons, List.length_append]
      omega
    have rest := ih _ shorter parts rfl
    rw [← first, ← next] at rest
    have unmarked : '<' ∉ '/' :: name := by simp [hname]
    have guarded : guardedList ('<' :: '/' :: (name ++ behind)) =
        ['<', '\\', '/'] ++ (name ++ guardedList behind) := by
      rw [guardedList_of_opensEndTag hopens, ← List.cons_append, guardedList_append unmarked]
      rfl
    rw [printSlicesFrom?, if_pos fits, if_pos ((endTagAt_iff h).2 hopens), plain, rest, guarded]
    have whole : String.ofList (run ++ (['<', '\\', '/'] ++ (name ++ guardedList behind))) =
        String.ofList run ++ ("<\\/" ++ String.ofList (name ++ guardedList behind)) := by
      simp [← String.toList_inj]
    rw [whole, write_append, write_append]
    rfl
  · cases cs with
    | nil =>
        have ends : ¬ String.utf8Len (front ++ run) + 8 ≤ text.utf8ByteSize := by
          rw [size, String.utf8Len_nil]
          omega
        have plain := slice?_of_toList_eq h
        rw [← String.utf8Len_append, ← Nat.add_zero (String.utf8Len (front ++ run)),
          ← String.utf8Len_nil, ← size] at plain
        rw [printSlicesFrom?, if_neg ends, plain, guardedList, List.append_nil]
        rfl
    | cons c rest =>
        have longer : text.toList = front ++ (run ++ [c]) ++ rest := by
          rw [h]
          simp
        have shorter : rest.length < length := by
          rw [← hlength]
          exact Nat.lt_succ_self rest.length
        rw [printSlicesFrom?_skipChar _ h hopens, List.append_assoc, ih _ shorter longer rfl,
          guardedList_of_not_opensEndTag hopens, List.append_assoc, List.singleton_append]

theorem printSlices?_eq_print (text : String) : printSlices? text = some (print text) := by
  have whole : text.toList = [] ++ [] ++ text.toList := rfl
  rw [print_eq_write]
  exact printSlicesFrom?_eq_write whole

/-- Gives a character of a text, with a backslash behind it if `</script` starts at its position. -/
def marked (cs : List Char) (entry : Char × Nat) : List Char :=
  if OpensEndTag (cs.drop entry.2) then [entry.1, '\\'] else [entry.1]

/-- Puts a backslash into every `</script` of a text and keeps every character where it is. -/
def backslashed (cs : List Char) : List Char := cs.zipIdx.flatMap (marked cs)

private theorem guardedList_eq_flatMap_marked (front back : List Char) :
    guardedList back = (back.zipIdx front.length).flatMap (marked (front ++ back)) := by
  induction back generalizing front with
  | nil => rfl
  | cons c rest ih =>
      have further := ih (front ++ [c])
      rw [List.append_assoc, List.singleton_append, List.length_append,
        List.length_singleton] at further
      rw [List.zipIdx_cons, List.flatMap_cons, ← further, marked, List.drop_left]
      by_cases hopens : OpensEndTag (c :: rest)
      · rw [guardedList_of_opensEndTag hopens, if_pos hopens]
        rfl
      · rw [guardedList_of_not_opensEndTag hopens, if_neg hopens]
        rfl

theorem guardedList_eq_backslashed (cs : List Char) : guardedList cs = backslashed cs :=
  guardedList_eq_flatMap_marked [] cs

end ScriptGuard

/-- With the guard on, the text of a script is written by slices that all exist: as it is, with a
backslash between the marks of every end tag in it. -/
theorem Config.printSlices?_script {cfg : Config} {tag : String}
    (hescape : cfg.escapeScriptEndTags = true) (htag : sameName tag "script" = true)
    (content start : String) :
    ScriptGuard.printSlices? content = some (cfg.printPiece (.text (some tag) content)) ∧
      (cfg.printPiece (.text (some tag) content)).printTo ⟨start, none⟩ =
        (true, ⟨start ++ String.ofList (ScriptGuard.backslashed content.toList), none⟩) := by
  have guards : cfg.guardsText tag = true := by
    rw [guardsText, hescape, htag]
    rfl
  have guard : cfg.printPiece (.text (some tag) content) = ScriptGuard.print content := by
    rw [printPiece, if_pos guards]
  constructor
  · rw [guard]
    exact ScriptGuard.printSlices?_eq_print content
  · rw [guard, ScriptGuard.print_eq_write, ScriptGuard.guarded,
      ScriptGuard.guardedList_eq_backslashed, Sink.printTo_write]
    rfl

/-- Two end tags behind each other, the start of a third one, and wide characters around them. -/
theorem Config.printSlices?_script_wide :
    let cfg : Config := {}
    let content := "é</SCRIPT</script😀</scrip"
    cfg.escapeScriptEndTags = true ∧ sameName "Script" "script" = true ∧
      ScriptGuard.printSlices? content = some (cfg.printPiece (.text (some "Script") content)) ∧
      (cfg.printPiece (.text (some "Script") content)).printTo ⟨"", none⟩ =
        (true, ⟨"é<\\/SCRIPT<\\/script😀</scrip", none⟩) := by
  intro cfg content
  have script : sameName "Script" "script" = true := by decide
  have guarded : ScriptGuard.backslashed content.toList =
      "é<\\/SCRIPT<\\/script😀</scrip".toList := by
    decide +kernel
  have prints := cfg.printSlices?_script rfl script content ""
  rw [guarded] at prints
  exact ⟨rfl, script, prints.1, prints.2⟩

end HtmlPrinter
