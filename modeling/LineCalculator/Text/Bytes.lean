namespace LineCalculator

def byteLength (text : List Char) : Nat :=
  text.foldl (fun size c => size + c.utf8Size) 0

/-- The text after its first `n` bytes, unless they end inside a character or beyond the text. -/
def dropBytes? : List Char → Nat → Option (List Char)
  | text, 0 => some text
  | [], _ + 1 => none
  | c :: rest, n + 1 => if c.utf8Size ≤ n + 1 then dropBytes? rest (n + 1 - c.utf8Size) else none

/-- The first `n` bytes of the text, unless they end inside a character or beyond the text. -/
def takeBytes? : List Char → Nat → Option (List Char)
  | _, 0 => some []
  | [], _ + 1 => none
  | c :: rest, n + 1 =>
    if c.utf8Size ≤ n + 1 then (takeBytes? rest (n + 1 - c.utf8Size)).map (c :: ·) else none

def sliceBytes? (text : List Char) (start stop : Nat) : Option (List Char) :=
  if start ≤ stop then do
    let rest ← dropBytes? text start
    takeBytes? rest (stop - start)
  else none

theorem foldl_utf8Size (text : List Char) (size : Nat) :
    text.foldl (fun size c => size + c.utf8Size) size = size + byteLength text := by
  induction text generalizing size with
  | nil => rfl
  | cons c rest ih =>
    simp only [byteLength, List.foldl_cons]
    rw [ih, ih (0 + c.utf8Size)]
    omega

@[simp]
theorem byteLength_nil : byteLength [] = 0 :=
  rfl

@[simp]
theorem byteLength_cons (c : Char) (text : List Char) :
    byteLength (c :: text) = c.utf8Size + byteLength text := by
  simp only [byteLength, List.foldl_cons]
  rw [foldl_utf8Size, byteLength]
  omega

@[simp]
theorem byteLength_append (a b : List Char) :
    byteLength (a ++ b) = byteLength a + byteLength b := by
  induction a with
  | nil => simp
  | cons c rest ih => simp [ih, Nat.add_assoc]

theorem byteLength_pos {text : List Char} (h : text ≠ []) : 0 < byteLength text := by
  obtain ⟨c, rest, rfl⟩ := List.exists_cons_of_ne_nil h
  rw [byteLength_cons]
  exact Nat.add_pos_left c.utf8Size_pos _

theorem dropBytes?_cons (c : Char) (text : List Char) (n : Nat) :
    dropBytes? (c :: text) (c.utf8Size + n) = dropBytes? text n := by
  have hpos := c.utf8Size_pos
  obtain ⟨m, hm⟩ : ∃ m, c.utf8Size + n = m + 1 := ⟨c.utf8Size + n - 1, by omega⟩
  rw [hm, dropBytes?, if_pos (by omega)]
  congr 1
  omega

theorem takeBytes?_cons (c : Char) (text : List Char) (n : Nat) :
    takeBytes? (c :: text) (c.utf8Size + n) = (takeBytes? text n).map (c :: ·) := by
  have hpos := c.utf8Size_pos
  obtain ⟨m, hm⟩ : ∃ m, c.utf8Size + n = m + 1 := ⟨c.utf8Size + n - 1, by omega⟩
  rw [hm, takeBytes?, if_pos (by omega)]
  congr 2
  omega

/-- The bytes of a first part are dropped without cutting a character. -/
theorem dropBytes?_append (a b : List Char) (n : Nat) :
    dropBytes? (a ++ b) (byteLength a + n) = dropBytes? b n := by
  induction a with
  | nil => simp
  | cons c rest ih => rw [List.cons_append, byteLength_cons, Nat.add_assoc, dropBytes?_cons, ih]

/-- The bytes of a first part are that part. -/
theorem takeBytes?_append (a b : List Char) :
    takeBytes? (a ++ b) (byteLength a) = some a := by
  induction a with
  | nil => simp [takeBytes?]
  | cons c rest ih => rw [List.cons_append, byteLength_cons, takeBytes?_cons, ih, Option.map_some]

theorem dropBytes?_zero (text : List Char) : dropBytes? text 0 = some text := by
  cases text <;> rfl

/-- After the bytes of a first part comes the second one. -/
theorem dropBytes?_byteLength (a b : List Char) : dropBytes? (a ++ b) (byteLength a) = some b := by
  have h := dropBytes?_append a b 0
  rwa [Nat.add_zero, dropBytes?_zero] at h

theorem byteLength_of_dropBytes? {text rest : List Char} {n : Nat}
    (h : dropBytes? text n = some rest) : byteLength text = n + byteLength rest := by
  fun_induction dropBytes? text n with
  | case1 text =>
    obtain rfl : text = rest := by simpa using h
    omega
  | case2 n => simp at h
  | case3 c tail n hle ih =>
    rw [byteLength_cons, ih h]
    omega
  | case4 c tail n hlt => simp at h

/-- The middle of three parts is the slice between their ends. -/
theorem sliceBytes?_append (a b c : List Char) :
    sliceBytes? (a ++ b ++ c) (byteLength a) (byteLength a + byteLength b) = some b := by
  simp [sliceBytes?, dropBytes?_byteLength, takeBytes?_append]

end LineCalculator
