import QwebReceiver.Text

/-!
  QwebReceiver.Proofs.Text.Utf8 — the bytes of a text, read by index.

  `At bytes i rest` says that the bytes from index `i` on are those of `rest`.
  An ASCII character is one byte there (`At.ascii`), any other character is a
  run of bytes none of which is ASCII (`At.inert`), and behind the first byte
  of a character only such bytes follow (`At.inert_behind`).  So a reader that
  looks for ASCII may step byte by byte, and may land inside of a character.

  A boundary is where such a rest starts (`isBoundary_iff`), and a slice
  between two boundaries is what stands between them (`slice_written`).
-/

namespace QwebReceiver.Text

/-! ## §1. Bytes of a character. -/

/-- The byte of an ASCII character is its code. -/
theorem encode_ascii {c : Char} (h : c.toNat < 128) :
    String.utf8EncodeChar c = [UInt8.ofNat c.toNat] := by
  have hv : c.val.toNat ≤ 127 := Nat.le_of_lt_succ h
  simp only [String.utf8EncodeChar, if_pos hv]
  rfl

/-- No byte of another character is an ASCII byte. -/
theorem inert_encode {c : Char} (h : 128 ≤ c.toNat) :
    ∀ b ∈ String.utf8EncodeChar c, 128 ≤ b.toNat := by
  have hv : ¬ c.val.toNat ≤ 127 := Nat.not_le_of_lt h
  intro b hb
  simp only [String.utf8EncodeChar, if_neg hv] at hb
  split at hb
  · simp only [List.mem_cons, List.not_mem_nil, or_false] at hb
    rcases hb with rfl | rfl <;> rw [UInt8.toNat_ofNat'] <;> omega
  split at hb
  · simp only [List.mem_cons, List.not_mem_nil, or_false] at hb
    rcases hb with rfl | rfl | rfl <;> rw [UInt8.toNat_ofNat'] <;> omega
  · simp only [List.mem_cons, List.not_mem_nil, or_false] at hb
    rcases hb with rfl | rfl | rfl | rfl <;> rw [UInt8.toNat_ofNat'] <;> omega

/-- Behind the first byte of a character there is no ASCII byte, whatever the
character is. -/
theorem inert_tail_encode (c : Char) : ∀ b ∈ (String.utf8EncodeChar c).tail, 128 ≤ b.toNat := by
  intro b hb
  rcases Nat.lt_or_ge c.toNat 128 with h | h
  · simp [encode_ascii h] at hb
  · exact inert_encode h b (List.mem_of_mem_tail hb)

/-- An ASCII character takes one byte. -/
theorem utf8Size_ascii {c : Char} (h : c.toNat < 128) : c.utf8Size = 1 := by
  rw [← String.length_utf8EncodeChar, encode_ascii h, List.length_singleton]

/-- ASCII characters are told apart by their bytes. -/
theorem eq_of_byte_eq {c d : Char} (hc : c.toNat < 128) (hd : d.toNat < 128)
    (h : UInt8.ofNat c.toNat = UInt8.ofNat d.toNat) : c = d := by
  have heq : c.toNat = d.toNat := by
    have := congrArg UInt8.toNat h
    rw [UInt8.toNat_ofNat', UInt8.toNat_ofNat'] at this
    omega
  rw [← Char.ofNat_toNat c, ← Char.ofNat_toNat d, heq]

/-! ## §2. Bytes of a text. -/

@[simp] theorem utf8_nil : utf8 [] = [] := rfl

theorem utf8_cons (c : Char) (r : Text) : utf8 (c :: r) = String.utf8EncodeChar c ++ utf8 r :=
  List.flatMap_cons

theorem utf8_append (s t : Text) : utf8 (s ++ t) = utf8 s ++ utf8 t := List.flatMap_append

/-- The size of a text is how many bytes it has. -/
theorem length_utf8 (t : Text) : (utf8 t).length = utf8Size t := by
  induction t with
  | nil => rfl
  | cons c r ih => rw [utf8_cons, List.length_append, String.length_utf8EncodeChar, ih, utf8Size]

theorem size_utf8 (t : Text) : t.utf8.toArray.size = utf8Size t := by
  rw [List.size_toArray, length_utf8]

/-! ## §3. Reading from an index. -/

/-- The bytes from index `i` on are those of `rest`, so that `i` is a boundary
of characters. -/
def At (bytes : Array UInt8) (i : Nat) (rest : Text) : Prop := bytes.toList.drop i = utf8 rest

/-- The `n` bytes from index `i` on are there, and none of them is ASCII.  A
scan for ASCII steps over them one by one. -/
def Inert (bytes : Array UInt8) (i n : Nat) : Prop :=
  ∀ k < n, ∃ b, bytes[i + k]? = some b ∧ 128 ≤ b.toNat

/-- What holds behind bytes that are not ASCII holds before them, if one such
byte does not matter. -/
theorem Inert.back {bytes : Array UInt8} {i n : Nat} {P : Nat → Prop} (h : Inert bytes i n)
    (hstep : ∀ j b, bytes[j]? = some b → 128 ≤ b.toNat → P (j + 1) → P j) (hP : P (i + n)) :
    P i := by
  induction n generalizing i with
  | zero => exact hP
  | succ n ih =>
    obtain ⟨b, hb, hge⟩ := h 0 (Nat.succ_pos n)
    refine hstep i b hb hge (ih (fun k hk => ?_) ?_)
    · rw [Nat.add_assoc, Nat.add_comm 1]
      exact h (k + 1) (Nat.succ_lt_succ hk)
    · rwa [Nat.add_assoc, Nat.add_comm 1]

section At

variable {bytes : Array UInt8} {i : Nat} {c : Char} {rest : Text}

theorem at_start (t : Text) : At t.utf8.toArray 0 t := rfl

/-- A byte is found by its distance from an index at which the rest is known. -/
theorem At.getElem? (h : At bytes i rest) (k : Nat) : bytes[i + k]? = (utf8 rest)[k]? := by
  rw [← Array.getElem?_toList, ← List.getElem?_drop, h]

theorem At.nil (h : At bytes i []) : bytes.size ≤ i := by
  simpa [At] using h

/-- Behind some characters stands what follows them. -/
theorem At.append {s : Text} (h : At bytes i (s ++ rest)) : At bytes (i + utf8Size s) rest := by
  unfold At at h ⊢
  rw [← List.drop_drop, h, utf8_append, ← length_utf8, List.drop_left]

/-- One character further stands what follows it. -/
theorem At.next (h : At bytes i (c :: rest)) : At bytes (i + c.utf8Size) rest :=
  At.append (s := [c]) h

/-- If a character is left, the index is a valid one. -/
theorem At.lt (h : At bytes i (c :: rest)) : i < bytes.size := by
  have := congrArg List.length h
  rw [List.length_drop, Array.length_toList, length_utf8, utf8Size] at this
  have := c.utf8Size_pos
  omega

/-- An ASCII character is the byte at its index. -/
theorem At.ascii (h : At bytes i (c :: rest)) (hc : c.toNat < 128) :
    bytes[i]? = some (UInt8.ofNat c.toNat) ∧ At bytes (i + 1) rest := by
  constructor
  · rw [show bytes[i]? = bytes[i + 0]? from rfl, h.getElem?, utf8_cons, encode_ascii hc]
    rfl
  · have := h.next
    rwa [utf8Size_ascii hc] at this

/-- Any other character is a run without ASCII. -/
theorem At.inert (h : At bytes i (c :: rest)) (hc : 128 ≤ c.toNat) :
    Inert bytes i c.utf8Size := by
  intro k hk
  rw [← String.length_utf8EncodeChar] at hk
  rw [h.getElem?, utf8_cons, List.getElem?_append_left hk, List.getElem?_eq_getElem hk]
  exact ⟨_, rfl, inert_encode hc _ (List.getElem_mem hk)⟩

/-- Behind the first byte of a character there is no ASCII before the next
character. -/
theorem At.inert_behind (h : At bytes i (c :: rest)) : Inert bytes (i + 1) (c.utf8Size - 1) := by
  intro k hk
  have hlt : k < (String.utf8EncodeChar c).tail.length := by
    rw [List.length_tail, String.length_utf8EncodeChar]
    exact hk
  have hget : (String.utf8EncodeChar c)[k + 1]? = some ((String.utf8EncodeChar c).tail[k]) := by
    rw [← List.getElem?_tail, List.getElem?_eq_getElem hlt]
  rw [Nat.add_assoc, Nat.add_comm 1, h.getElem?, utf8_cons,
    List.getElem?_append_left (by rw [String.length_utf8EncodeChar]; omega), hget]
  exact ⟨_, rfl, inert_tail_encode c _ (List.getElem_mem hlt)⟩

theorem At.exists_byte (h : At bytes i (c :: rest)) : ∃ b, bytes[i]? = some b :=
  ⟨_, Array.getElem?_eq_getElem h.lt⟩

/-- The byte at the index of a character tells whether it is a given ASCII
character. -/
theorem At.byte_eq_iff (h : At bytes i (c :: rest)) {b : UInt8} (hb : bytes[i]? = some b)
    (d : Char) (hd : d.toNat < 128) : b = UInt8.ofNat d.toNat ↔ c = d := by
  rcases Nat.lt_or_ge c.toNat 128 with hc | hc
  · rw [(h.ascii hc).1] at hb
    cases hb
    exact ⟨eq_of_byte_eq hc hd, fun heq => by rw [heq]⟩
  · obtain ⟨b', hb', hge⟩ := h.inert hc 0 c.utf8Size_pos
    rw [Nat.add_zero, hb] at hb'
    cases hb'
    constructor
    · rintro rfl
      rw [UInt8.toNat_ofNat'] at hge
      omega
    · rintro rfl
      omega

end At

/-! ## §4. Boundaries. -/

/-- Taking as many bytes as a text has takes that text. -/
theorem takeBytes_written (w r : Text) : takeBytes (utf8Size w) (w ++ r) = w := by
  induction w with
  | nil =>
    cases r with
    | nil => rfl
    | cons c r =>
      show (if c.utf8Size ≤ 0 then _ else _) = _
      rw [if_neg (by have := c.utf8Size_pos; omega)]
  | cons c w ih =>
    show (if c.utf8Size ≤ c.utf8Size + utf8Size w then
      c :: takeBytes (c.utf8Size + utf8Size w - c.utf8Size) (w ++ r) else []) = _
    rw [if_pos (Nat.le_add_right _ _), Nat.add_sub_cancel_left, ih]

theorem dropBytes_written (w r : Text) : dropBytes (utf8Size w) (w ++ r) = r := by
  have h := takeBytes_append_dropBytes (utf8Size w) (w ++ r)
  rw [takeBytes_written] at h
  exact List.append_cancel_left h

theorem slice_written (s m r : Text) :
    slice (s ++ (m ++ r)) (utf8Size s) (utf8Size s + utf8Size m) = m := by
  rw [slice, dropBytes_written, Nat.add_sub_cancel_left, takeBytes_written]

/-- The end of an initial part is a boundary. -/
theorem isBoundary_written (s r : Text) : isBoundary (s ++ r) (utf8Size s) = true := by
  rw [isBoundary, takeBytes_written, beq_self_eq_true]

/-- The boundaries of a text are the sizes of its initial parts, so that a slice
between two of them never cuts a character. -/
theorem isBoundary_iff {t : Text} {n : Nat} :
    isBoundary t n = true ↔ ∃ s r, t = s ++ r ∧ n = utf8Size s := by
  constructor
  · intro h
    exact ⟨takeBytes n t, dropBytes n t, (takeBytes_append_dropBytes n t).symm,
      (beq_iff_eq.1 h).symm⟩
  · rintro ⟨s, r, rfl, rfl⟩
    exact isBoundary_written s r

/-- An ASCII byte stands at a boundary only, for it is the whole of a character. -/
theorem isBoundary_of_ascii {t : Text} {n : Nat} {b : UInt8} (h : (utf8 t)[n]? = some b)
    (hb : b.toNat < 128) : isBoundary t n = true := by
  induction t generalizing n with
  | nil => cases h
  | cons c r ih =>
    rw [utf8_cons] at h
    by_cases hn : n < c.utf8Size
    · rw [← String.length_utf8EncodeChar] at hn
      rw [List.getElem?_append_left hn, List.getElem?_eq_getElem hn] at h
      -- no byte of a longer encoding is ASCII
      have hc : c.toNat < 128 := by
        rcases Nat.lt_or_ge c.toNat 128 with hc | hc
        · exact hc
        · have := inert_encode hc b (Option.some.inj h ▸ List.getElem_mem hn)
          omega
      rw [String.length_utf8EncodeChar, utf8Size_ascii hc] at hn
      obtain rfl : n = 0 := by omega
      exact isBoundary_written [] (c :: r)
    · have hn' := Nat.le_of_not_lt hn
      rw [List.getElem?_append_right (by rwa [String.length_utf8EncodeChar]),
        String.length_utf8EncodeChar] at h
      have hrest := beq_iff_eq.1 (ih h)
      rw [isBoundary, takeBytes, if_pos hn', utf8Size, hrest, beq_iff_eq]
      omega

/-- At a boundary stands the rest of the text. -/
theorem at_of_isBoundary {t : Text} {n : Nat} (h : isBoundary t n = true) :
    At t.utf8.toArray n (t.dropBytes n) := by
  obtain ⟨s, r, rfl, rfl⟩ := isBoundary_iff.1 h
  rw [dropBytes_written]
  have := (at_start (s ++ r)).append
  rwa [Nat.zero_add] at this

end QwebReceiver.Text
