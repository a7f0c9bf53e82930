import GosKernel.Kernel.Strings
import GosKernel.Lib.TextGrid

/-!
# The VGA text terminal (`src/drivers/vga/vga.c`)

The screen is an array of 80 × 25 cells. Characters are written at a cursor; a row that is
full is left when the next character comes (not when it gets full), and below the last row
the screen scrolls.

The text written so far has a layout in rows (`TextGrid.layout`), and the screen is a window
on the last 25 of them: `Shows` is the invariant, and `vgaPutchar_showsText` its step.
-/

namespace GosKernel.Vga

open Exec TextGrid Strings List Function

/-- `VGA_WIDTH`. -/
def vgaWidth : Nat := 80

/-- `VGA_HEIGHT`. -/
def vgaHeight : Nat := 25

/-- A cell: the character and the colour. -/
abbrev Cell := BitVec 16

/-- The screen memory, the variables of the driver and the position of the hardware cursor. -/
structure Terminal where
  memory : Nat → Cell
  row : Nat
  col : Nat
  color : UInt8
  cursor : BitVec 16

/-! ## The functions -/

/-- `vga_entry` (vga.c:13-15); `char` is signed. -/
def vgaEntry (c color : UInt8) : Cell :=
  c.toBitVec.signExtend 16 ||| (color.toBitVec.setWidth 16 <<< 8)

/-- The colour is in the high byte and the character in the low byte. -/
theorem vgaEntry_eq {c : UInt8} (hc : c ≤ 0x7E) (k : UInt8) :
    vgaEntry c k = (k.toBitVec ++ c.toBitVec : BitVec 16) := by
  have hmsb : c.toBitVec.msb = false := by
    rw [BitVec.msb_eq_false_iff_two_mul_lt]
    have : c.toNat ≤ 0x7E := hc
    show 2 * c.toNat < 2 ^ 8
    omega
  rw [vgaEntry, BitVec.signExtend_eq_setWidth_of_msb_false hmsb]
  refine BitVec.eq_of_getLsbD_eq fun i hi => ?_
  rw [show (k.toBitVec ++ c.toBitVec : BitVec 16).getLsbD i = _ from BitVec.getLsbD_append]
  by_cases hlow : i < 8
  · simp [hlow, hi]
  · simp [hlow, hi, BitVec.getLsbD_of_ge c.toBitVec i (by omega)]

/-- `VGA_MEMORY[i] = e`, which stops outside the screen. -/
def writeCell (i : Nat) (e : Cell) : Exec Terminal Unit := fun s =>
  if i < vgaHeight * vgaWidth then some ((), { s with memory := Function.update s.memory i e })
  else none

/-- A space in the colour of the driver. -/
def writeBlank (i : Nat) : Exec Terminal Unit := do
  let color ← read (·.color)
  writeCell i (vgaEntry 0x20 color)

/-- `vga_move_cursor` (vga.c:54-60). -/
def vgaMoveCursor : Exec Terminal Unit :=
  update fun s => { s with cursor := BitVec.ofNat 16 (s.row * vgaWidth + s.col) }

/-- `vga_clear` (vga.c:27-36). -/
def vgaClear : Exec Terminal Unit := do
  forRange 0 vgaHeight fun y => forRange 0 vgaWidth fun x => writeBlank (y * vgaWidth + x)
  update fun s => { s with row := 0, col := 0 }
  vgaMoveCursor

/-- `vga_scroll` (vga.c:42-52). -/
def vgaScroll : Exec Terminal Unit := do
  forRange 1 (vgaHeight - 1) fun y => forRange 0 vgaWidth fun x => do
    let e ← read (·.memory (y * vgaWidth + x))
    writeCell ((y - 1) * vgaWidth + x) e
  forRange 0 vgaWidth fun x => writeBlank ((vgaHeight - 1) * vgaWidth + x)
  update fun s => { s with row := vgaHeight - 1 }

/-- The next row, which a newline and a character behind a full row begin (vga.c:75-79 and
107-111). -/
def nextRow : Exec Terminal Unit := do
  update fun s => { s with col := 0, row := s.row + 1 }
  let row ← read (·.row)
  if vgaHeight ≤ row then vgaScroll else pure ()

/-- The loop of a tab (vga.c:90-93); it ends within 80 rounds. -/
def tabLoop (nextTab : Nat) : (rounds : Nat) → Exec Terminal Unit
  | 0 => pure ()
  | rounds + 1 => do
    let row ← read (·.row)
    let col ← read (·.col)
    if col < nextTab ∧ col < vgaWidth then do
      writeBlank (row * vgaWidth + col)
      update fun s => { s with col := s.col + 1 }
      tabLoop nextTab rounds
    else pure ()

/-- A character behind a full row begins the next one (vga.c:106-112). -/
def leaveFullRow : Exec Terminal Unit := do
  let col ← read (·.col)
  if vgaWidth ≤ col then nextRow else pure ()

/-- The character at the cursor, which moves on (vga.c:114-115). -/
def putEntry (c : UInt8) : Exec Terminal Unit := do
  let s ← read id
  writeCell (s.row * vgaWidth + s.col) (vgaEntry c s.color)
  update fun s => { s with col := s.col + 1 }

/-- `vga_putchar` (vga.c:73-117). -/
def vgaPutchar (c : UInt8) : Exec Terminal Unit :=
  if c = 0x0A then do
    nextRow
    vgaMoveCursor
  else if c = 0x0D then do
    update fun s => { s with col := 0 }
    vgaMoveCursor
  else if c = 0x09 then do
    let col ← read (·.col)
    tabLoop ((col + 8) / 8 * 8) vgaWidth
    vgaMoveCursor
  else if c = 0x08 then do
    let col ← read (·.col)
    if 0 < col then do
      update fun s => { s with col := s.col - 1 }
      let s ← read id
      writeBlank (s.row * vgaWidth + s.col)
    else pure ()
    vgaMoveCursor
  else do
    leaveFullRow
    putEntry c
    vgaMoveCursor

/-- `vga_putchar` for each character. -/
def putAll : List UInt8 → Exec Terminal Unit
  | [] => pure ()
  | c :: text => do
    vgaPutchar c
    putAll text

/-- The loop of `vga_puts`. -/
def vgaPutsLoop (m : ByteMem) : (fuel str : Nat) → Exec Terminal Unit
  | 0, _ => stop
  | fuel + 1, str =>
    if m str ≠ 0 then do
      vgaPutchar (m str)
      vgaPutsLoop m fuel (str + 1)
    else pure ()

/-- `vga_puts` (vga.c:119-124). -/
def vgaPuts (m : ByteMem) (fuel str : Nat) : Exec Terminal Unit :=
  if str = 0 then pure () else vgaPutsLoop m fuel str

/-! ## Clearing and scrolling -/

theorem writeBlank_triple {P Q : Terminal → Prop} {i : Nat} (hi : i < 2000)
    (h : ∀ s, P s → Q { s with memory := Function.update s.memory i (vgaEntry 0x20 s.color) }) :
    Triple P (writeBlank i) fun _ => Q := by
  intro s hs
  exact ⟨(), _, if_pos hi, h s hs⟩

/-- The cells below `n` are blank. -/
def BlankBelow (k : UInt8) (n : Nat) (s : Terminal) : Prop :=
  s.color = k ∧ ∀ i < n, s.memory i = vgaEntry 0x20 k

variable {c n : Nat} {init : List (List UInt8)} {k : UInt8} {last text : List UInt8}
  {m : Nat → Cell} {s : Terminal}

theorem BlankBelow.write (h : BlankBelow k n s) :
    BlankBelow k (n + 1)
      { s with memory := Function.update s.memory n (vgaEntry 0x20 s.color) } := by
  refine ⟨h.1, fun i hi => ?_⟩
  by_cases hin : i = n
  · subst hin
    rw [← h.1]
    exact update_self ..
  · show Function.update s.memory n _ i = _
    rw [update_of_ne hin]
    exact h.2 i (by omega)

/-- **`vga_clear`** makes every cell blank. -/
theorem vgaClear_triple (k : UInt8) :
    Triple (fun s => s.color = k) vgaClear fun _ s =>
      BlankBelow k 2000 s ∧ s.row = 0 ∧ s.col = 0 ∧ s.cursor = 0 := by
  have hloop : Triple (BlankBelow k (0 * 80))
      (forRange 0 25 fun y => forRange 0 80 fun x => writeBlank (y * 80 + x))
      fun _ => BlankBelow k ((0 + 25) * 80) := by
    refine Triple.forGrid fun y x _ hy hx => ?_
    exact writeBlank_triple (by omega) fun s hs => hs.write
  have hstart : Triple (fun s => s.color = k)
      (forRange 0 25 fun y => forRange 0 80 fun x => writeBlank (y * 80 + x))
      fun _ => BlankBelow k 2000 := by
    intro s hs
    exact hloop s ⟨hs, fun i hi => absurd hi (Nat.not_lt_zero i)⟩
  refine hstart.seq (Triple.seq (R := fun s => BlankBelow k 2000 s ∧ s.row = 0 ∧ s.col = 0)
    (Triple.update fun s hs => ⟨hs, rfl, rfl⟩) (Triple.update ?_))
  rintro s ⟨hs, hrow, hcol⟩
  refine ⟨hs, hrow, hcol, ?_⟩
  rw [hrow, hcol]
  rfl

/-- The first `n` cells below the first row have moved up. -/
structure MovedUp (m : Nat → Cell) (k : UInt8) (c n : Nat) (s : Terminal) : Prop where
  color : s.color = k
  col : s.col = c
  cells : ∀ i, s.memory i = if i + 80 < n then m (i + 80) else m i

theorem MovedUp.write {e : Cell} (h : MovedUp m k c (n + 80) s) (he : s.memory (n + 80) = e) :
    MovedUp m k c (n + 80 + 1) { s with memory := Function.update s.memory n e } := by
  refine ⟨h.color, h.col, fun i => ?_⟩
  have hi := h.cells i
  have hn := h.cells (n + 80)
  show Function.update s.memory n e i = _
  by_cases hin : i = n
  · subst hin
    rw [update_self, ← he, hn, if_neg (by omega), if_pos (by omega)]
  · rw [update_of_ne hin, hi]
    refine if_congr ?_ rfl rfl
    omega

/-- All rows have moved up, and the first `n` cells of the last row are blank. -/
structure Scrolled (m : Nat → Cell) (k : UInt8) (c n : Nat) (s : Terminal) : Prop where
  color : s.color = k
  col : s.col = c
  moved : ∀ i < 1920, s.memory i = m (i + 80)
  blank : ∀ i < 1920 + n, 1920 ≤ i → s.memory i = vgaEntry 0x20 k

theorem MovedUp.scrolled (h : MovedUp m k c 2000 s) : Scrolled m k c 0 s where
  color := h.color
  col := h.col
  moved := fun i hi => by rw [h.cells, if_pos (by omega)]
  blank := fun i hi hle => absurd hle (Nat.not_le.mpr hi)

theorem Scrolled.write (h : Scrolled m k c n s) :
    Scrolled m k c (n + 1)
      { s with memory := Function.update s.memory (1920 + n) (vgaEntry 0x20 s.color) } := by
  refine ⟨h.color, h.col, fun i hi => ?_, fun i hi hle => ?_⟩
  · show Function.update s.memory (1920 + n) _ i = _
    rw [update_of_ne (by omega), h.moved i hi]
  · show Function.update s.memory (1920 + n) _ i = _
    by_cases hin : i = 1920 + n
    · rw [hin, update_self, h.color]
    · rw [update_of_ne hin, h.blank i (by omega) hle]

/-- **`vga_scroll`** moves the rows up and makes the last one blank. -/
theorem vgaScroll_triple (m : Nat → Cell) (k : UInt8) (c : Nat) :
    Triple (fun s => s.memory = m ∧ s.color = k ∧ s.col = c) vgaScroll fun _ s =>
      Scrolled m k c 80 s ∧ s.row = 24 := by
  have hmove : Triple (MovedUp m k c (1 * 80))
      (forRange 1 24 fun y => forRange 0 80 fun x => do
        let e ← read (·.memory (y * 80 + x))
        writeCell ((y - 1) * 80 + x) e)
      fun _ => MovedUp m k c ((1 + 24) * 80) := by
    refine Triple.forGrid fun y x hy1 hy hx => ?_
    intro s hs
    have hn : (y - 1) * 80 + x + 80 = y * 80 + x := by omega
    have hwrite : MovedUp m k c (y * 80 + x + 1)
        { s with
          memory := Function.update s.memory ((y - 1) * 80 + x) (s.memory (y * 80 + x)) } := by
      rw [← hn] at hs ⊢
      exact hs.write rfl
    exact ⟨(), _, if_pos (show (y - 1) * 80 + x < 2000 by omega), hwrite⟩
  have hblank : Triple (Scrolled m k c 0) (forRange 0 80 fun x => writeBlank (24 * 80 + x))
      fun _ => Scrolled m k c (0 + 80) := by
    refine Triple.forRange fun x _ hx => ?_
    exact writeBlank_triple (by omega) fun s hs => hs.write
  have hstart : Triple (fun s => s.memory = m ∧ s.color = k ∧ s.col = c)
      (forRange 1 24 fun y => forRange 0 80 fun x => do
        let e ← read (·.memory (y * 80 + x))
        writeCell ((y - 1) * 80 + x) e)
      fun _ => Scrolled m k c 0 := by
    rintro s ⟨hm, hk, hc⟩
    obtain ⟨a, s', hreturns, hs'⟩ := hmove s ⟨hk, hc, fun i => by rw [hm, if_neg (by omega)]⟩
    exact ⟨a, s', hreturns, hs'.scrolled⟩
  refine hstart.seq (hblank.seq (Triple.update fun s hs => ?_))
  exact ⟨⟨hs.color, hs.col, hs.moved, hs.blank⟩, rfl⟩

/-! ## The window -/

/-- `'\n'`. -/
def isNewline (c : UInt8) : Bool := c = 0x0A

/-- A cell that shows a character, or a space: the colour in the high byte, the character in the
low byte. -/
def shown (k : UInt8) (c : Option UInt8) : Cell := k.toBitVec ++ (c.getD 0x20).toBitVec

/-- The screen is a window on the rows `init` and `last`, and the cursor is behind `last`. -/
structure Shows (k : UInt8) (init : List (List UInt8)) (last : List UInt8) (s : Terminal) :
    Prop where
  color : s.color = k
  row : s.row = min init.length 24
  col : s.col = last.length
  cells : ∀ y < 25, ∀ x < 80, s.memory (y * 80 + x) = shown k (cell 25 (init ++ [last]) y x)

/-- **The next row** is an empty one below all others. -/
theorem nextRow_shows (k : UInt8) (init : List (List UInt8)) (last : List UInt8) :
    Triple (Shows k init last) nextRow fun _ => Shows k (init ++ [last]) [] := by
  intro s hs
  have hlen : (init ++ [last]).length = init.length + 1 := by
    rw [length_append, length_singleton]
  by_cases hroom : init.length < 24
  · have hrow : ¬ vgaHeight ≤ s.row + 1 := by
      rw [hs.row]
      show ¬ 25 ≤ _
      omega
    refine ⟨(), { s with col := 0, row := s.row + 1 }, ?_, hs.color, ?_, rfl, fun y hy x hx => ?_⟩
    · show (if vgaHeight ≤ s.row + 1 then vgaScroll else pure ()) _ = _
      rw [if_neg hrow]
      rfl
    · show s.row + 1 = _
      rw [hs.row]
      omega
    · rw [cell_newRow_of_lt (by omega)]
      exact hs.cells y hy x hx
  · -- the screen is full: every row of it moves up
    have hrow : vgaHeight ≤ s.row + 1 := by
      rw [hs.row]
      show 25 ≤ _
      omega
    obtain ⟨a, s', hreturns, hscrolled, hrow'⟩ := vgaScroll_triple s.memory k 0
      { s with col := 0, row := s.row + 1 } ⟨rfl, hs.color, rfl⟩
    refine ⟨a, s', ?_, hscrolled.color, ?_, hscrolled.col, fun y hy x hx => ?_⟩
    · show (if vgaHeight ≤ s.row + 1 then vgaScroll else pure ()) _ = _
      rw [if_pos hrow]
      exact hreturns
    · rw [hrow']
      omega
    · by_cases hlast : y + 1 < 25
      · rw [hscrolled.moved _ (by omega), show y * 80 + x + 80 = (y + 1) * 80 + x by omega,
          hs.cells (y + 1) hlast x hx, cell_newRow_of_ge (by omega) hlast]
      · obtain rfl : y = 25 - 1 := by omega
        rw [hscrolled.blank _ (by omega) (by omega), cell_newRow_last (by omega) x (by omega)]
        exact vgaEntry_eq (by decide) k

/-- **A character** in the last row. -/
theorem putEntry_shows (k : UInt8) (init : List (List UInt8))
    (hroom : last.length < 80) {c : UInt8} (hc : c ≤ 0x7E) :
    Triple (Shows k init last) (putEntry c) fun _ => Shows k init (last ++ [c]) := by
  intro s hs
  have hrow : s.row ≤ 24 := by
    rw [hs.row]
    omega
  have hcol : s.col < 80 := hs.col ▸ hroom
  have hinside : s.row * vgaWidth + s.col < vgaHeight * vgaWidth := by
    show s.row * 80 + s.col < 25 * 80
    omega
  refine ⟨(), { s with
      memory := Function.update s.memory (s.row * 80 + s.col) (vgaEntry c s.color),
      col := s.col + 1 }, ?_, hs.color, hs.row, ?_, fun y hy x hx => ?_⟩
  · show ((if s.row * vgaWidth + s.col < vgaHeight * vgaWidth then _ else none : Option _).bind _) = _
    rw [if_pos hinside]
    rfl
  · show s.col + 1 = _
    rw [hs.col, length_append, length_singleton]
  · rw [cell_put (by omega)]
    show Function.update s.memory (s.row * 80 + s.col) _ (y * 80 + x) = _
    have hrow' := hs.row
    have hcol' := hs.col
    by_cases hyx : y = min init.length (25 - 1) ∧ x = last.length
    · rw [if_pos hyx, show y * 80 + x = s.row * 80 + s.col by omega, update_self, hs.color]
      exact vgaEntry_eq hc k
    · rw [if_neg hyx, update_of_ne (by omega), hs.cells y hy x hx]

/-! ## The terminal -/

/-- The screen shows the text, and the cursor is behind it. -/
structure ShowsText (k : UInt8) (text : List UInt8) (s : Terminal) : Prop where
  shows : ∀ init last, layout 80 isNewline text = init ++ [last] → Shows k init last s
  cursor : s.cursor = BitVec.ofNat 16 (s.row * 80 + s.col)

/-- A printable ASCII character or a newline. -/
def IsText (c : UInt8) : Prop := (0x20 ≤ c ∧ c ≤ 0x7E) ∨ c = 0x0A

instance (c : UInt8) : Decidable (IsText c) := inferInstanceAs (Decidable (_ ∨ _))

theorem vgaMoveCursor_showsText (hlayout : layout 80 isNewline text = init ++ [last]) :
    Triple (Shows k init last) vgaMoveCursor fun _ => ShowsText k text := by
  refine Triple.update fun s hs => ⟨fun init' last' hlayout' => ?_, rfl⟩
  obtain ⟨rfl, hlast⟩ := append_inj' (hlayout.symm.trans hlayout') rfl
  obtain rfl : last = last' := singleton_inj.mp hlast
  exact ⟨hs.color, hs.row, hs.col, hs.cells⟩

theorem leaveFullRow_stays (hroom : last.length < 80) :
    Triple (Shows k init last) leaveFullRow fun _ => Shows k init last := by
  intro s hs
  have hcol : ¬ vgaWidth ≤ s.col := by
    rw [hs.col]
    exact Nat.not_le.mpr hroom
  refine ⟨(), s, ?_, hs⟩
  show (if vgaWidth ≤ s.col then nextRow else pure ()) s = _
  rw [if_neg hcol]
  rfl

theorem leaveFullRow_leaves (hfull : 80 ≤ last.length) :
    Triple (Shows k init last) leaveFullRow fun _ => Shows k (init ++ [last]) [] := by
  intro s hs
  have hcol : vgaWidth ≤ s.col := by
    rw [hs.col]
    exact hfull
  obtain ⟨a, s', hreturns, hs'⟩ := nextRow_shows k init last s hs
  refine ⟨a, s', ?_, hs'⟩
  show (if vgaWidth ≤ s.col then nextRow else pure ()) s = _
  rw [if_pos hcol]
  exact hreturns

theorem vgaPutchar_printable {c : UInt8} (hc : 0x20 ≤ c) :
    vgaPutchar c = (do leaveFullRow; putEntry c; vgaMoveCursor) := by
  have hne : ∀ d : UInt8, d < 0x20 → c ≠ d := by
    rintro d hd rfl
    exact absurd hc (UInt8.not_le.mpr hd)
  unfold vgaPutchar
  rw [if_neg (hne _ (by decide)), if_neg (hne _ (by decide)), if_neg (hne _ (by decide)),
    if_neg (hne _ (by decide))]

/-- **`vga_putchar`** adds the character to the text. -/
theorem vgaPutchar_showsText (k : UInt8) (text : List UInt8) {c : UInt8} (hc : IsText c) :
    Triple (ShowsText k text) (vgaPutchar c) fun _ => ShowsText k (text ++ [c]) := by
  obtain ⟨init, last, hlayout, hlast, hsnoc⟩ := layout_snoc (w := 80) (by omega) isNewline text
  intro s hs
  have hshows := hs.shows init last hlayout
  rcases hc with hprint | rfl
  · have hbreak : ¬ isNewline c = true := by
      intro hc
      obtain rfl : c = 0x0A := of_decide_eq_true hc
      exact absurd hprint.1 (by decide)
    have hsnoc := hsnoc c
    rw [if_neg hbreak] at hsnoc
    rw [vgaPutchar_printable hprint.1]
    by_cases hroom : last.length < 80
    · rw [if_pos hroom] at hsnoc
      exact ((leaveFullRow_stays hroom).seq ((putEntry_shows k init hroom hprint.2).seq
        (vgaMoveCursor_showsText hsnoc))) s hshows
    · rw [if_neg hroom] at hsnoc
      have hsnoc : layout 80 isNewline (text ++ [c]) = (init ++ [last]) ++ [[] ++ [c]] := by
        rw [hsnoc, append_assoc]
        rfl
      exact ((leaveFullRow_leaves (Nat.not_lt.mp hroom)).seq
        ((putEntry_shows k _ (show ([] : List UInt8).length < 80 by decide) hprint.2).seq
          (vgaMoveCursor_showsText hsnoc))) s hshows
  · have hbreak : layout 80 isNewline (text ++ [0x0A]) = (init ++ [last]) ++ [[]] := by
      rw [hsnoc, append_assoc]
      rfl
    exact ((nextRow_shows k init last).seq (vgaMoveCursor_showsText hbreak)) s hshows

/-- **Any text** is added to the text before it. -/
theorem putAll_showsText (k : UInt8) (before : List UInt8) (htext : ∀ c ∈ text, IsText c) :
    Triple (ShowsText k before) (putAll text) fun _ => ShowsText k (before ++ text) := by
  induction text generalizing before with
  | nil =>
    rw [append_nil]
    exact Triple.pure fun _ hs => hs
  | cons c text ih =>
    obtain ⟨hc, htext⟩ := forall_mem_cons.mp htext
    have hrest := ih (before ++ [c]) htext
    rw [append_assoc] at hrest
    exact (vgaPutchar_showsText k before hc).seq hrest

/-- The loop writes the characters of the string. -/
theorem vgaPutsLoop_bytes {m : ByteMem} {a : Nat} (hzero : 0 ∉ text)
    (h : m.Holds a (text ++ [0])) {fuel : Nat} (hfuel : text.length < fuel) :
    vgaPutsLoop m fuel a = putAll text := by
  induction text generalizing a fuel with
  | nil =>
    obtain ⟨fuel, rfl⟩ := fuel_succ hfuel
    exact if_neg (not_not_intro h.1)
  | cons c text ih =>
    obtain ⟨fuel, rfl⟩ := fuel_succ hfuel
    have hc : m a = c := h.1
    have hc0 : m a ≠ 0 := fun h0 => hzero (by rw [← h0, hc]; exact mem_cons_self)
    rw [vgaPutsLoop, if_pos hc0, hc, putAll,
      ih (not_mem_of_not_mem_cons hzero) h.2 (Nat.lt_of_succ_lt_succ hfuel)]

/-- **`vga_puts`** adds a string to the text before it. -/
theorem vga_puts_shows {m : ByteMem} {a fuel : Nat} (k : UInt8) (before : List UInt8)
    (htext : ∀ c ∈ text, IsText c) (ha : a ≠ 0) (h : m.Holds a (text ++ [0]))
    (hfuel : text.length < fuel) :
    Triple (ShowsText k before) (vgaPuts m fuel a) fun _ => ShowsText k (before ++ text) := by
  have hzero : 0 ∉ text := fun hmem => absurd (htext 0 hmem) (by decide)
  rw [vgaPuts, if_neg ha, vgaPutsLoop_bytes hzero h hfuel]
  exact putAll_showsText k before htext

theorem vga_puts_shows_hi : Triple (ShowsText 7 []) (vgaPuts (.ofList [0, 72, 105, 0]) 3 1)
    fun _ => ShowsText 7 [72, 105] :=
  vga_puts_shows 7 [] (by simp [IsText]) (by decide) (by decide) (by decide)

/-- A cleared screen shows the empty text. -/
theorem vgaClear_showsText (k : UInt8) :
    Triple (fun s => s.color = k) vgaClear fun _ => ShowsText k [] := by
  intro s hs
  obtain ⟨a, s', hreturns, hblank, hrow, hcol, hcursor⟩ := vgaClear_triple k s hs
  refine ⟨a, s', hreturns, fun init last hlayout => ?_, ?_⟩
  · have hempty : layout 80 isNewline [] = [[]] := by
      rw [layout, splitOnP_nil, flatMap_singleton, wrapLine_of_le (Nat.zero_le _)]
    rw [hempty] at hlayout
    obtain ⟨rfl, hlast⟩ := append_inj' (show [] ++ [[]] = init ++ [last] from hlayout) rfl
    obtain rfl : [] = last := singleton_inj.mp hlast
    refine ⟨hblank.1, hrow, hcol, fun y hy x hx => ?_⟩
    have hcell : cell 25 ([] ++ [([] : List UInt8)]) y x = none := by
      cases y with
      | zero => rfl
      | succ y => rfl
    rw [hblank.2 _ (by omega), hcell]
    exact vgaEntry_eq (by decide) k
  · rw [hcursor, hrow, hcol]
    rfl

/-- **The terminal.** From a cleared screen, printable characters and newlines are written
without leaving the 2000 cells. The screen then shows the last 25 rows of the text, split at
its newlines and after every 80 characters of a line, and is blank elsewhere, every cell with the
character in its low byte and the colour in its high byte; the cursor is in one of the 25 rows and
at most behind column 79. -/
theorem vga_shows_layout (s0 : Terminal) (text : List UInt8) (htext : ∀ c ∈ text, IsText c) :
    ∃ s, Returns (do vgaClear; putAll text) s0 () s ∧
      (∀ y < 25, ∀ x < 80, s.memory (y * 80 + x) =
        s0.color.toBitVec ++ ((cell 25 (layout 80 isNewline text) y x).getD 0x20).toBitVec) ∧
      s.row < 25 ∧ s.col ≤ 80 := by
  obtain ⟨a, s, hreturns, hs⟩ :=
    ((vgaClear_showsText s0.color).seq (putAll_showsText s0.color [] htext)) s0 rfl
  obtain ⟨init, last, hlayout, hlast, -⟩ := layout_snoc (w := 80) (by omega) isNewline text
  have hshows := hs.shows init last hlayout
  refine ⟨s, hreturns, fun y hy x hx => ?_, ?_, ?_⟩
  · rw [hshows.cells y hy x hx, hlayout]
    rfl
  · rw [hshows.row]
    omega
  · rw [hshows.col]
    exact hlast

/-- A line of 80 characters and a newline: the next character is in the second row. -/
theorem vga_shows_layout_full_line :
    ∃ s, Returns (do vgaClear; putAll (List.replicate 80 0x61 ++ [0x0A, 0x62]))
        ⟨fun _ => 0, 3, 4, 7, 0⟩ () s ∧
      s.memory 79 = 0x0761 ∧ s.memory 80 = 0x0762 ∧ s.memory 160 = 0x0720 := by
  have htext : ∀ c ∈ List.replicate 80 (0x61 : UInt8) ++ [0x0A, 0x62], IsText c := by
    refine List.forall_mem_append.mpr ⟨fun c hc => ?_, ?_⟩
    · rw [List.eq_of_mem_replicate hc]
      decide
    · exact List.forall_mem_cons.mpr ⟨by decide, List.forall_mem_singleton.mpr (by decide)⟩
  obtain ⟨s, hreturns, hcells, -⟩ := vga_shows_layout ⟨fun _ => 0, 3, 4, 7, 0⟩ _ htext
  have hlines : (List.replicate 80 (0x61 : UInt8) ++ [0x0A, 0x62]).splitOnP isNewline =
      [List.replicate 80 0x61, [0x62]] := by decide
  have hlayout : layout 80 isNewline (List.replicate 80 0x61 ++ [0x0A, 0x62]) =
      [List.replicate 80 0x61, [0x62]] := by
    rw [layout, hlines, List.flatMap_cons, List.flatMap_singleton, wrapLine_of_le (by decide),
      wrapLine_of_le (by decide)]
    rfl
  rw [hlayout] at hcells
  refine ⟨s, hreturns, ?_, ?_, ?_⟩
  · exact hcells 0 (by decide) 79 (by decide)
  · exact hcells 1 (by decide) 0 (by decide)
  · exact hcells 2 (by decide) 0 (by decide)

end GosKernel.Vga
