import Autotree.Text.Raw
import Autotree.Path
import Mathlib.Algebra.Group.Nat.Defs
import Mathlib.Data.List.Induction

/-!
# Sizes and appearance of texts of the system

A slash is a byte of its own, so a joined path has the bytes of both parts and perhaps a slash
between them (`exists_byteSize_join`).  A text without stray bytes is shown as it is
(`shown_of_isUnicode`).  What is shown of stray bytes has no ASCII character, so a text is shown
with the dot in front that it has (`head?_shown_eq_dot`), and with the end (`suffix_shown_iff`): a
sequence that has begun stands for a character behind the ASCII ones already
(`Utf8.Pending.Begun`), so each byte keeps it there.
-/

namespace Autotree.Text

variable {c : Char} {b : UInt8} {cs : List Char} {text left right : String}

/-- An ASCII character, NUL aside. -/
def IsAscii (c : Char) : Prop :=
  0 < c.toNat ∧ c.toNat < 128

instance (c : Char) : Decidable (IsAscii c) :=
  inferInstanceAs (Decidable (_ ∧ _))

/-- A character that no ASCII text has. -/
def Foreign (c : Char) : Prop :=
  ¬ IsAscii c

theorem Foreign.ne {d : Char} (h : Foreign c) (hd : IsAscii d) : c ≠ d :=
  fun heq => h (heq ▸ hd)

theorem foreign_replacement : Foreign Utf8.replacement :=
  (by decide : ¬ IsAscii Utf8.replacement)

/-- A number beyond the ASCII ones is no ASCII character, and none at all becomes NUL. -/
theorem foreign_ofNat {n : Nat} (h : 128 ≤ n) : Foreign (Char.ofNat n) := by
  rintro ⟨hpos, hlt⟩
  by_cases hvalid : n.isValidChar
  · rw [Char.ofNat, dif_pos hvalid] at hlt
    exact absurd (Nat.lt_of_lt_of_le hlt h) (Nat.lt_irrefl n)
  · rw [Char.ofNat, dif_neg hvalid] at hpos
    exact Nat.lt_irrefl 0 hpos

namespace Utf8

/-- The least character that a sequence can still become is no ASCII character. -/
def Pending.Begun (p : Pending) : Prop :=
  128 ≤ (p.value * 64 + (p.low.toNat - 0x80)) * 64 ^ (p.missing - 1)

theorem begun_of_none : ∀ p ∈ (none : Option Pending), p.Begun := nofun

theorem begun_of_begins? {b : UInt8} {p : Pending} (h : begins? b = some p) : p.Begun := by
  unfold begins? at h
  simp only [UInt8.le_iff_toNat_le, ← UInt8.toNat_inj] at h
  split at h
  · cases h
    simp [Pending.Begun] at *
    omega
  · split at h
    · cases h
      simp [Pending.Begun] at *
      split <;> simp <;> omega
    · split at h
      · cases h
        simp [Pending.Begun] at *
        split <;> simp <;> omega
      · cases h

/-- What a step writes for a byte that is not ASCII, and what it leaves. -/
structure StepsForeign (result : List Char × Option Pending) : Prop where
  written : ∀ c ∈ result.1, Foreign c
  pending : ∀ p ∈ result.2, p.Begun
  some : result.1 ≠ [] ∨ result.2 ≠ none

theorem stepsForeign_start {b : UInt8} (hb : 0x80 ≤ b) : StepsForeign (start replaced b) := by
  have hascii : ¬ b < 0x80 := UInt8.not_lt.2 hb
  rw [start, if_neg hascii]
  cases hbegins : begins? b with
  | none =>
    refine ⟨?_, nofun, .inl (List.cons_ne_nil _ _)⟩
    intro c hc
    rw [List.mem_singleton.1 hc]
    exact foreign_replacement
  | some p =>
    refine ⟨nofun, ?_, .inr (Option.some_ne_none p)⟩
    rintro q ⟨⟩
    exact begun_of_begins? hbegins

theorem stepsForeign_step {b : UInt8} {pending : Option Pending} (hb : 0x80 ≤ b)
    (hbegun : ∀ p ∈ pending, p.Begun) : StepsForeign (step replaced pending b) := by
  have hstart := stepsForeign_start hb
  cases pending with
  | none => exact hstart
  | some p =>
    have hp : 128 ≤ (p.value * 64 + (p.low.toNat - 0x80)) * 64 ^ (p.missing - 1) := hbegun p rfl
    rw [step]
    split
    · next hrange =>
      have hlow : p.low.toNat ≤ b.toNat := UInt8.le_iff_toNat_le.1 hrange.1
      have hle : p.value * 64 + (p.low.toNat - 0x80) ≤ p.value * 64 + (b.toNat - 0x80) := by omega
      have hvalue := Nat.le_trans hp (Nat.mul_le_mul_right (64 ^ (p.missing - 1)) hle)
      by_cases hlast : p.missing ≤ 1
      · rw [if_pos hlast]
        rw [Nat.sub_eq_zero_of_le hlast, Nat.pow_zero, Nat.mul_one] at hvalue
        refine ⟨?_, nofun, .inl (List.cons_ne_nil _ _)⟩
        intro c hc
        rw [List.mem_singleton.1 hc]
        exact foreign_ofNat hvalue
      · rw [if_neg hlast]
        refine ⟨nofun, ?_, .inr (Option.some_ne_none _)⟩
        rintro q ⟨⟩
        obtain ⟨n, hn⟩ : ∃ n, p.missing = n + 2 := ⟨p.missing - 2, by omega⟩
        simpa [Pending.Begun, hn, Nat.pow_succ, Nat.mul_assoc, Nat.mul_comm 64] using hvalue
    · refine ⟨?_, hstart.pending, .inl (List.cons_ne_nil _ _)⟩
      intro c hc
      rcases List.mem_cons.1 hc with rfl | hc
      · exact foreign_replacement
      · exact hstart.written c hc

end Utf8

namespace Raw

theorem pieces_cons_ne_nil (c : Char) (cs : List Char) : pieces (c :: cs) ≠ [] := by
  cases cs with
  | nil => simp [pieces]
  | cons d cs =>
    rw [pieces]
    split <;> exact List.cons_ne_nil _ _

theorem isByte_of_isAscii_left (h : IsAscii c) (d : Char) : isByte c d = false := by
  have hne : c ≠ escape := by
    rintro rfl
    exact Nat.lt_irrefl 0 h.1
  simp [isByte, hne]

theorem isByte_of_isAscii_right {d : Char} (h : IsAscii d) (c : Char) : isByte c d = false := by
  have hlow : ¬ 0x80 ≤ d.toNat := Nat.not_le.2 h.2
  simp [isByte, hlow]

theorem pieces_cons_of_isAscii (h : IsAscii c) (cs : List Char) :
    pieces (c :: cs) = .char c :: pieces cs := by
  cases cs with
  | nil => rfl
  | cons d cs => rw [pieces, isByte_of_isAscii_left h, if_neg Bool.false_ne_true]

/-- An ASCII character belongs to no other byte. -/
theorem pieces_append_of_isAscii (h : IsAscii c) (cs rest : List Char) :
    pieces (cs ++ c :: rest) = pieces cs ++ .char c :: pieces rest := by
  fun_induction pieces cs with
  | case1 => exact pieces_cons_of_isAscii h rest
  | case2 d =>
    rw [List.singleton_append, pieces, isByte_of_isAscii_right h, if_neg Bool.false_ne_true,
      pieces_cons_of_isAscii h]
    rfl
  | case3 d e cs hbyte ih =>
    rw [List.cons_append, List.cons_append, pieces, if_pos hbyte, ih]
    rfl
  | case4 d e cs hbyte ih =>
    rw [List.cons_append, List.cons_append, pieces, if_neg hbyte]
    rw [List.cons_append] at ih
    rw [ih]
    rfl

theorem size_append (left right : List Piece) : size (left ++ right) = size left + size right := by
  induction left with
  | nil => exact (Nat.zero_add _).symm
  | cons piece left ih => rw [List.cons_append, size, size, ih, Nat.add_assoc]

theorem pieces_of_not_mem (h : escape ∉ cs) : pieces cs = cs.map .char := by
  fun_induction pieces cs with
  | case1 => rfl
  | case2 c => rfl
  | case3 c d cs hbyte ih =>
    simp only [isByte, Bool.and_eq_true, beq_iff_eq] at hbyte
    exact absurd (hbyte.1.1 ▸ List.mem_cons_self) h
  | case4 c d cs hbyte ih =>
    rw [ih fun hmem => h (List.mem_cons_of_mem c hmem)]
    rfl

theorem byte_mem_pieces (h : .byte b ∈ pieces cs) : 0x80 ≤ b := by
  fun_induction pieces cs with
  | case1 => cases h
  | case2 d => simp at h
  | case3 d e cs hbyte ih =>
    rcases List.mem_cons.1 h with h | h
    · cases h
      simp only [isByte, Bool.and_eq_true, decide_eq_true_eq] at hbyte
      rw [UInt8.le_iff_toNat_le, Nat.toUInt8_eq, UInt8.toNat_ofNat']
      have h80 : (0x80 : UInt8).toNat = 0x80 := rfl
      omega
    · exact ih h
  | case4 d e cs hbyte ih =>
    rcases List.mem_cons.1 h with h | h
    · cases h
    · exact ih h

/-- The characters that a piece is kept as. -/
def Piece.chars : Piece → List Char
  | char c => [c]
  | byte b => [escape, Char.ofNat b.toNat]

/-- A text is kept as its pieces are. -/
theorem flatMap_chars_pieces (cs : List Char) : (pieces cs).flatMap Piece.chars = cs := by
  fun_induction pieces cs with
  | case1 => rfl
  | case2 c => rfl
  | case3 c d cs hbyte ih =>
    simp only [isByte, Bool.and_eq_true, beq_iff_eq, decide_eq_true_eq] at hbyte
    obtain ⟨⟨rfl, -⟩, hd⟩ := hbyte
    have hback : Char.ofNat d.toNat.toUInt8.toNat = d := by
      rw [Nat.toUInt8_eq, UInt8.toNat_ofNat', Nat.mod_eq_of_lt (by omega), Char.ofNat_toNat]
    rw [List.flatMap_cons, ih, Piece.chars, hback]
    rfl
  | case4 c d cs hbyte ih =>
    rw [List.flatMap_cons, ih]
    rfl

theorem char_mem_pieces (h : .char c ∈ pieces cs) : c ∈ cs := by
  rw [← flatMap_chars_pieces cs]
  exact List.mem_flatMap.2 ⟨.char c, h, List.mem_singleton_self c⟩

theorem head?_of_pieces_cons {piece : Piece} {ps : List Piece} (h : pieces cs = piece :: ps) :
    cs.head? = piece.chars.head? := by
  rw [← flatMap_chars_pieces cs, h, List.flatMap_cons]
  cases piece <;> rfl

theorem pieces_of_byte_not_mem (h : ∀ b, .byte b ∉ pieces cs) : pieces cs = cs.map .char := by
  fun_induction pieces cs with
  | case1 => rfl
  | case2 c => rfl
  | case3 c d cs hbyte ih => exact absurd List.mem_cons_self (h d.toNat.toUInt8)
  | case4 c d cs hbyte ih =>
    rw [ih fun b hb => h b (List.mem_cons_of_mem _ hb)]
    rfl

theorem shown_map_char (cs : List Char) : shown none (cs.map .char) = cs := by
  induction cs with
  | nil => rfl
  | cons c cs ih =>
    rw [List.map_cons, shown, ih]
    rfl

section Bytes

variable {ps : List Piece} {pending : Option Utf8.Pending}

theorem foreign_of_mem_breakOff (h : c ∈ Utf8.breakOff Utf8.replaced pending) : Foreign c := by
  cases pending with
  | none => cases h
  | some p =>
    rw [List.mem_singleton.1 h]
    exact foreign_replacement

/-- What is shown are characters that stand there, and such as paths do not read. -/
theorem mem_shown (hbytes : ∀ b, .byte b ∈ ps → 0x80 ≤ b) (hbegun : ∀ p ∈ pending, p.Begun)
    (h : c ∈ shown pending ps) : .char c ∈ ps ∨ Foreign c := by
  fun_induction shown pending ps with
  | case1 pending => exact .inr (foreign_of_mem_breakOff h)
  | case2 pending d rest ih =>
    rcases List.mem_append.1 h with h | h
    · exact .inr (foreign_of_mem_breakOff h)
    rcases List.mem_cons.1 h with rfl | h
    · exact .inl List.mem_cons_self
    · exact (ih (fun b hb => hbytes b (List.mem_cons_of_mem _ hb)) Utf8.begun_of_none h).imp_left
        (List.mem_cons_of_mem _)
  | case3 pending b rest ih =>
    have hstep := Utf8.stepsForeign_step (hbytes b List.mem_cons_self) hbegun
    rcases List.mem_append.1 h with h | h
    · exact .inr (hstep.written c h)
    · exact (ih (fun b hb => hbytes b (List.mem_cons_of_mem _ hb)) hstep.pending h).imp_left
        (List.mem_cons_of_mem _)

/-- A sequence that has begun, or begins, shows first. -/
theorem exists_foreign_head (hbytes : ∀ b, .byte b ∈ ps → 0x80 ≤ b)
    (hbegun : ∀ p ∈ pending, p.Begun) (h : pending ≠ none ∨ ∃ b rest, ps = .byte b :: rest) :
    ∃ c, (shown pending ps).head? = some c ∧ Foreign c := by
  have hbroken : ∀ {pending : Option Utf8.Pending}, pending ≠ none →
      Utf8.breakOff Utf8.replaced pending = [Utf8.replacement] := by
    rintro (_ | p) hpending
    · exact absurd rfl hpending
    · rfl
  fun_induction shown pending ps with
  | case1 pending =>
    rcases h with hpending | ⟨b, rest, hcons⟩
    · exact ⟨_, by rw [hbroken hpending]; rfl, foreign_replacement⟩
    · cases hcons
  | case2 pending d rest ih =>
    rcases h with hpending | ⟨b, rest, hcons⟩
    · exact ⟨_, by rw [hbroken hpending]; rfl, foreign_replacement⟩
    · cases hcons
  | case3 pending b rest ih =>
    have hstep := Utf8.stepsForeign_step (hbytes b List.mem_cons_self) hbegun
    cases hwritten : (Utf8.step Utf8.replaced pending b).1 with
    | nil =>
      have hpending := hstep.some.resolve_left (not_not_intro hwritten)
      exact ih (fun b hb => hbytes b (List.mem_cons_of_mem _ hb)) hstep.pending (.inl hpending)
    | cons c written => exact ⟨c, rfl, hstep.written c (hwritten ▸ List.mem_cons_self)⟩

/-- A stray byte shows. -/
theorem exists_foreign_mem_shown (hbytes : ∀ b, .byte b ∈ ps → 0x80 ≤ b)
    (h : ∃ b, .byte b ∈ ps) : ∃ c ∈ shown none ps, Foreign c := by
  induction ps with
  | nil => exact absurd h (by simp)
  | cons piece rest ih =>
    cases piece with
    | byte b =>
      obtain ⟨c, hc, hforeign⟩ := exists_foreign_head hbytes Utf8.begun_of_none
        (.inr ⟨b, rest, rfl⟩)
      exact ⟨c, List.mem_of_head? hc, hforeign⟩
    | char d =>
      obtain ⟨b, hb⟩ := h
      have hrest := List.mem_of_ne_of_mem Piece.noConfusion hb
      obtain ⟨c, hc, hforeign⟩ := ih (fun b hb => hbytes b (List.mem_cons_of_mem _ hb)) ⟨b, hrest⟩
      exact ⟨c, List.mem_cons_of_mem d hc, hforeign⟩

theorem shown_concat_char (pending : Option Utf8.Pending) (ps : List Piece) (c : Char) :
    shown pending (ps ++ [.char c]) = shown pending ps ++ [c] := by
  induction ps generalizing pending with
  | nil => rfl
  | cons piece ps ih => cases piece <;> simp [shown, ih]

/-- What is shown last of a stray byte is no ASCII character. -/
theorem shown_concat_byte {b : UInt8} (hbytes : ∀ d, .byte d ∈ ps ++ [.byte b] → 0x80 ≤ d)
    (hbegun : ∀ p ∈ pending, p.Begun) :
    ∃ front c, shown pending (ps ++ [.byte b]) = front ++ [c] ∧ Foreign c := by
  induction ps generalizing pending with
  | nil =>
    have hstep := Utf8.stepsForeign_step (hbytes b (List.mem_singleton_self _)) hbegun
    rw [List.nil_append, shown, shown]
    cases hpending : (Utf8.step Utf8.replaced pending b).2 with
    | some p => exact ⟨_, Utf8.replacement, rfl, foreign_replacement⟩
    | none =>
      have hne := hstep.some.resolve_right (not_not_intro hpending)
      refine ⟨(Utf8.step Utf8.replaced pending b).1.dropLast, _, ?_,
        hstep.written _ (List.getLast_mem hne)⟩
      rw [Utf8.breakOff, List.append_nil, List.dropLast_concat_getLast]
  | cons piece ps ih =>
    have hrest := fun d hd => hbytes d (List.mem_cons_of_mem piece hd)
    cases piece with
    | char d =>
      obtain ⟨front, c, hshown, hc⟩ := ih hrest Utf8.begun_of_none
      refine ⟨Utf8.breakOff Utf8.replaced pending ++ d :: front, c, ?_, hc⟩
      rw [List.cons_append, shown, hshown, List.append_assoc, List.cons_append]
    | byte d =>
      have hstep := Utf8.stepsForeign_step (hbytes d List.mem_cons_self) hbegun
      obtain ⟨front, c, hshown, hc⟩ := ih hrest hstep.pending
      refine ⟨(Utf8.step Utf8.replaced pending d).1 ++ front, c, ?_, hc⟩
      rw [List.cons_append, shown, hshown, List.append_assoc]

theorem concat_suffix_concat {α : Type} {l l' : List α} {a b : α} :
    l ++ [a] <:+ l' ++ [b] ↔ l <:+ l' ∧ a = b := by
  rw [List.suffix_concat_iff]
  constructor
  · rintro (h | ⟨t, h, hsuffix⟩)
    · exact absurd h (List.append_ne_nil_of_right_ne_nil l (List.cons_ne_nil a []))
    · obtain ⟨rfl, hlast⟩ := List.append_inj' h rfl
      exact ⟨hsuffix, List.head_eq_of_cons_eq hlast⟩
  · rintro ⟨hsuffix, rfl⟩
    exact .inr ⟨l, rfl, hsuffix⟩

variable {ends : List Char} (hends : ∀ c ∈ ends, IsAscii c)

include hends

/-- ASCII characters are shown last where they stand last. -/
theorem suffix_shown_iff (hbytes : ∀ b, .byte b ∈ ps → 0x80 ≤ b) :
    ends <:+ shown none ps ↔ ends.map .char <:+ ps := by
  induction ends using List.reverseRecOn generalizing ps with
  | nil => simp
  | append_singleton ends c ih =>
    obtain ⟨hrest, hc⟩ := List.forall_mem_append.1 hends
    rw [List.map_append, List.map_singleton]
    rcases List.eq_nil_or_concat ps with rfl | ⟨front, piece, rfl⟩
    · simp [shown, Utf8.breakOff]
    rw [List.concat_eq_append] at hbytes ⊢
    rw [concat_suffix_concat]
    cases piece with
    | char d =>
      have hfront := fun b hb => hbytes b (List.mem_append_left _ hb)
      rw [shown_concat_char, concat_suffix_concat, ih hrest hfront, Piece.char.injEq]
    | byte b =>
      obtain ⟨shownFront, d, hshown, hd⟩ := shown_concat_byte hbytes Utf8.begun_of_none
      rw [hshown, concat_suffix_concat]
      have hne := hd.ne (hc c (List.mem_singleton_self c))
      exact iff_of_false (fun h => hne h.2.symm) fun h => Piece.noConfusion h.2

theorem suffix_pieces_iff : ends.map .char <:+ pieces cs ↔ ends <:+ cs := by
  constructor
  · rintro ⟨front, hfront⟩
    refine ⟨front.flatMap Piece.chars, ?_⟩
    rw [← flatMap_chars_pieces cs, ← hfront, List.flatMap_append, List.flatMap_map]
    exact congrArg _ (List.flatMap_singleton' ends).symm
  · rintro ⟨front, rfl⟩
    cases ends with
    | nil => simp
    | cons c ends =>
      obtain ⟨hc, hrest⟩ := List.forall_mem_cons.1 hends
      have hescape : escape ∉ ends := fun h => Nat.lt_irrefl 0 (hrest _ h).1
      rw [pieces_append_of_isAscii hc, pieces_of_not_mem hescape]
      exact List.suffix_append _ _

end Bytes

end Raw

/-- What is text throughout is shown as it is. -/
theorem shown_of_isUnicode (h : isUnicode text = true) : shown text = text := by
  have hnot : Raw.escape ∉ text.toList := by simpa [isUnicode] using h
  rw [shown, Raw.pieces_of_not_mem hnot, Raw.shown_map_char, String.ofList_toList]

/-- What is shown of a text with stray bytes has a character that no path reads. -/
theorem shown_eq_or_exists_foreign (text : String) :
    shown text = text ∨ ∃ c ∈ (shown text).toList, Foreign c := by
  by_cases hbyte : ∃ b, .byte b ∈ Raw.pieces text.toList
  · have hshown := Raw.exists_foreign_mem_shown (fun _ => Raw.byte_mem_pieces) hbyte
    exact .inr (by simpa [shown] using hshown)
  · refine .inl ?_
    rw [shown, Raw.pieces_of_byte_not_mem (not_exists.1 hbyte), Raw.shown_map_char,
      String.ofList_toList]

theorem mem_of_mem_shown (h : c ∈ (shown text).toList) : c ∈ text.toList ∨ Foreign c := by
  have hmem : c ∈ Raw.shown none (Raw.pieces text.toList) := by simpa [shown] using h
  exact (Raw.mem_shown (fun _ => Raw.byte_mem_pieces) Utf8.begun_of_none hmem).imp_left
    Raw.char_mem_pieces

/-- What begins with a dot is shown with it, and nothing else is. -/
theorem head?_shown_eq_dot :
    (shown text).toList.head? = some '.' ↔ text.toList.head? = some '.' := by
  have hlist : (shown text).toList = Raw.shown none (Raw.pieces text.toList) := by simp [shown]
  rw [hlist]
  cases hpieces : Raw.pieces text.toList with
  | nil =>
    cases hcs : text.toList with
    | nil => rfl
    | cons c cs => exact absurd (hcs ▸ hpieces) (Raw.pieces_cons_ne_nil c cs)
  | cons piece rest =>
    rw [Raw.head?_of_pieces_cons hpieces]
    cases piece with
    | char c => rfl
    | byte b =>
      have hbytes : ∀ d, .byte d ∈ .byte b :: rest → 0x80 ≤ d := fun d hd =>
        Raw.byte_mem_pieces (hpieces ▸ hd)
      obtain ⟨c, hc, hforeign⟩ := Raw.exists_foreign_head hbytes Utf8.begun_of_none
        (.inr ⟨b, rest, rfl⟩)
      rw [hc]
      simp [Raw.Piece.chars, Raw.escape, hforeign.ne (by decide : IsAscii '.')]

/-- A text is shown with the end that it has, as far as that is ASCII. -/
theorem suffix_shown_iff {ends : List Char} (hends : ∀ c ∈ ends, IsAscii c) :
    ends <:+ (shown text).toList ↔ ends <:+ text.toList := by
  rw [shown, String.toList_ofList, Raw.suffix_shown_iff hends fun _ => Raw.byte_mem_pieces,
    Raw.suffix_pieces_iff hends]

theorem byteSize_append_slash (left right : String) :
    byteSize (left ++ "/" ++ right) = byteSize left + 1 + byteSize right := by
  have hlist : (left ++ "/" ++ right).toList = left.toList ++ '/' :: right.toList := by simp
  have hslash : (Raw.Piece.char '/').size = 1 := rfl
  rw [byteSize, hlist, Raw.pieces_append_of_isAscii (by decide), Raw.size_append, Raw.size, hslash,
    ← byteSize, ← byteSize, Nat.add_assoc]

/-- A joined path has the bytes of both parts, and perhaps a slash between them. -/
theorem exists_byteSize_join (hleft : left ≠ "") (hright : Path.isAbsolute right = false) :
    ∃ n, byteSize (Path.join left right) = n + byteSize right ∧ byteSize left ≤ n ∧
      n ≤ byteSize left + 1 := by
  unfold Path.join
  rw [if_neg (by simp [hright, hleft])]
  split
  · next hlast =>
    obtain ⟨front, hfront⟩ := List.getLast?_eq_some_iff.1 hlast
    have hslash : left = String.ofList front ++ "/" ++ "" := by
      rw [← String.toList_inj, hfront]
      simp
    have hjoin : left ++ right = String.ofList front ++ "/" ++ right := by
      rw [← String.toList_inj]
      simp [hfront]
    have hleft : byteSize left = byteSize (String.ofList front) + 1 := by
      rw [hslash, byteSize_append_slash]
      rfl
    refine ⟨byteSize left, ?_, Nat.le_refl _, Nat.le_succ _⟩
    rw [hjoin, byteSize_append_slash, hleft]
  · exact ⟨byteSize left + 1, byteSize_append_slash left right, Nat.le_succ _, Nat.le_refl _⟩

/-- A joined path is no shorter than what it is joined to. -/
theorem byteSize_le_join (hright : Path.isAbsolute right = false) (left : String) :
    byteSize left ≤ byteSize (Path.join left right) := by
  by_cases hleft : left = ""
  · rw [hleft]
    exact Nat.zero_le _
  · obtain ⟨n, hsize, hle, -⟩ := exists_byteSize_join hleft hright
    omega

/-- A joined path is no shorter than what is joined. -/
theorem byteSize_right_le_join (left right : String) :
    byteSize right ≤ byteSize (Path.join left right) := by
  by_cases hsame : Path.isAbsolute right = true ∨ left = ""
  · have hjoin : Path.join left right = right := if_pos (by simpa using hsame)
    exact Nat.le_of_eq (congrArg byteSize hjoin.symm)
  · obtain ⟨n, hsize, -⟩ := exists_byteSize_join (fun h => hsame (.inr h))
      (Bool.eq_false_iff.2 fun h => hsame (.inl h))
    omega

end Autotree.Text
