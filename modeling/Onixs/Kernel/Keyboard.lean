import Mathlib.Data.List.Infix
import Onixs.Common.Bytes
import Onixs.Common.Stream
import Onixs.Lib.Types

/-!
# The keyboard

`kernel/keyboard.c`: `keyboard_handler` reads a byte of a scan code, stores in `keymap` which keys are held and puts the
character of a key that is pressed into a ring. Next to it stands a decoder that keeps the events of the keys and says
what each types: a letter is upper-case when exactly one of Shift and Caps Lock is in force. The handler works out
`shift` from both and then does not use it: it looks at `shift_state` alone, so that Caps Lock does nothing. What it
types is right as long as no letter is pressed under Caps Lock (`Onixs.Keyboard.decodes_iff`).
-/

namespace Onixs

/-- `INV`. -/
def inv : Char := Char.ofNat 0

/-- The first two columns of `keymap`: what a key types without and with Shift. -/
def keymap : List (Char × Char) :=
  [ (inv, inv), (Char.ofNat 0x1b, Char.ofNat 0x1b), ('1', '!'), ('2', '@'),
    ('3', '#'), ('4', '$'), ('5', '%'), ('6', '^'),
    ('7', '&'), ('8', '*'), ('9', '('), ('0', ')'),
    ('-', '_'), ('=', '+'), (Char.ofNat 8, Char.ofNat 8), (Char.ofNat 9, Char.ofNat 9),
    ('q', 'Q'), ('w', 'W'), ('e', 'E'), ('r', 'R'),
    ('t', 'T'), ('y', 'Y'), ('u', 'U'), ('i', 'I'),
    ('o', 'O'), ('p', 'P'), ('[', '{'), (']', '}'),
    (Char.ofNat 10, Char.ofNat 10), (inv, inv), ('a', 'A'), ('s', 'S'),
    ('d', 'D'), ('f', 'F'), ('g', 'G'), ('h', 'H'),
    ('j', 'J'), ('k', 'K'), ('l', 'L'), (';', ':'),
    (Char.ofNat 39, Char.ofNat 34), (Char.ofNat 96, '~'), (inv, inv), (Char.ofNat 92, '|'),
    ('z', 'Z'), ('x', 'X'), ('c', 'C'), ('v', 'V'),
    ('b', 'B'), ('n', 'N'), ('m', 'M'), (',', '<'),
    ('.', '>'), ('/', '?'), (inv, inv), ('*', '*'),
    (inv, inv), (' ', ' '), (inv, inv), (inv, inv),
    (inv, inv), (inv, inv), (inv, inv), (inv, inv),
    (inv, inv), (inv, inv), (inv, inv), (inv, inv),
    (inv, inv), (inv, inv), (inv, inv), ('7', inv),
    ('8', inv), ('9', inv), ('-', '-'), ('4', inv),
    ('5', inv), ('6', inv), ('+', '+'), ('1', inv),
    ('2', inv), ('3', inv), ('0', inv), ('.', Char.ofNat 0x7F),
    (inv, inv), (inv, inv), (inv, inv), (inv, inv),
    (inv, inv), (inv, inv), (inv, inv), (inv, inv),
    (inv, inv), (inv, inv), (inv, inv), (inv, inv)]

/-- `KEY_SHIFT_L`. -/
def keyShiftL : ℕ := 0x2A

/-- `KEY_SLASH`. -/
def keySlash : ℕ := 0x35

/-- `KEY_SHIFT_R`. -/
def keyShiftR : ℕ := 0x36

/-- `KEY_CAPSLOCK`. -/
def keyCapslock : ℕ := 0x3A

/-- `KEY_NUMLOCK`. -/
def keyNumlock : ℕ := 0x45

/-- `KEY_SCRLOCK`. -/
def keyScrlock : ℕ := 0x46

/-- `KEY_PRINT_SCREEN`, the last key of `keymap`. -/
def keyPrintScreen : ℕ := 0x5F

/-- `CODE_PRINT_SCREEN_DOWN`. -/
def codePrintScreenDown : ℕ := 0xB7

/-- A character of `keymap`. -/
def keymapChar (makecode : ℕ) (shift : Bool) : Char :=
  let row := keymap.getD makecode (inv, inv)
  if shift then row.2 else row.1

/-- The state of the keyboard. -/
structure Keyboard where
  /-- The other two columns of `keymap`: which keys are held. Column 3 is that of the keys behind `0xE0`. -/
  held : ℕ → ℕ → Bool
  /-- `capslock_state`. -/
  capslock : Bool
  /-- `numlock_state`. -/
  numlock : Bool
  /-- `scrlock_state`. -/
  scrlock : Bool
  /-- `extcode_state`. -/
  extcode : Bool
  /-- What has been put into `fifo`. -/
  fifo : List Char

namespace Keyboard

/-- `keyboard_init`. -/
def init : Keyboard where
  held := fun _ _ => false
  capslock := false
  numlock := false
  scrlock := false
  extcode := false
  fifo := []

variable (s : Keyboard)

/-- A store to `keymap`. -/
def setHeld (makecode ext : ℕ) (value : Bool) : Keyboard :=
  { s with held := fun key column => if key = makecode ∧ column = ext then value else s.held key column }

/-- `shift_state`. -/
def shiftState : Bool := s.held keyShiftL 2 || s.held keyShiftR 2

/-- The keys that lock. -/
def lock (makecode : ℕ) : Keyboard :=
  if makecode = keyNumlock then { s with numlock := !s.numlock }
  else if makecode = keyCapslock then { s with capslock := !s.capslock }
  else if makecode = keyScrlock then { s with scrlock := !s.scrlock }
  else s

/-- `keyboard_handler`, which has read the byte `b`. The lamps and the task that waits for a character are left out. -/
def handler (b : Byte) : Keyboard :=
  let scancode := b.toNat
  if scancode = 0xE0 then
    { s with extcode := true }
  else
    let ext := if s.extcode then 3 else 2
    let scancode := if s.extcode then scancode ||| 0xE000 else scancode
    let s := { s with extcode := false }
    let makecode := scancode &&& 0x7F
    let makecode := if makecode = codePrintScreenDown then keyPrintScreen else makecode
    if keyPrintScreen < makecode then
      s
    else if scancode &&& 0x80 ≠ 0 then
      s.setHeld makecode ext false
    else
      let s := (s.setHeld makecode ext true).lock makecode
      -- here `shift` is worked out from `capslock_state` and `shift_state`; nothing reads it
      let ch := if ext = 3 ∧ makecode ≠ keySlash then keymapChar makecode true else keymapChar makecode s.shiftState
      if ch = inv then s else { s with fifo := s.fifo ++ [ch] }

end Keyboard

/-! ### The decoder -/

/-- A key goes down or up. -/
structure KeyEvent where
  /-- The number of the key. -/
  code : ℕ
  /-- The key is one behind `0xE0`. -/
  ext : Bool
  /-- It goes down. -/
  press : Bool
deriving DecidableEq

namespace KeyEvent

variable (events : List KeyEvent)

/-- The last event of a key was a press. -/
def held (code : ℕ) (ext : Bool) : Bool :=
  ((events.filter fun e => e.code = code ∧ e.ext = ext).getLast?).any press

/-- A Shift is held. -/
def shift : Bool := held events keyShiftL false || held events keyShiftR false

/-- Caps Lock is on. -/
def caps : Bool := (events.countP fun e => e = ⟨keyCapslock, false, true⟩) % 2 = 1

/-- A letter of `keymap`. -/
def IsLetter (code : ℕ) : Prop := 'a' ≤ keymapChar code false ∧ keymapChar code false ≤ 'z'

instance (code : ℕ) : Decidable (IsLetter code) := inferInstanceAs (Decidable (_ ∧ _))

/-- The form of a key: a letter is upper-case when exactly one of Shift and Caps Lock is in force, another key has its
shifted form under Shift, and so does the key `/` behind `0xE0`; the other keys there have one form. -/
def form (e : KeyEvent) : Char :=
  if e.ext then
    keymapChar e.code (shift events || e.code ≠ keySlash)
  else if IsLetter e.code then
    if xor (shift events) (caps events) then (keymapChar e.code false).toUpper else keymapChar e.code false
  else
    keymapChar e.code (shift events)

/-- What the last of the events types. -/
def typed : Option Char := do
  let e ← events.getLast?
  assert e.press
  let ch := form events e
  assert (ch ≠ inv)
  return ch

/-- **What the events type**, in order. -/
def text : List Char := events.inits.filterMap typed

end KeyEvent

/-- The decoder. -/
structure Decoder where
  /-- The last byte was `0xE0`. -/
  pending : Bool
  /-- The events so far. -/
  events : List KeyEvent

namespace Decoder

/-- The decoder before the first byte. -/
def init : Decoder := ⟨false, []⟩

/-- The decoder reads a byte. -/
def read (d : Decoder) (b : Byte) : Decoder :=
  if b.toNat = 0xE0 then { d with pending := true }
  else ⟨false, d.events ++ [⟨b.toNat % 128, d.pending, b.toNat < 128⟩]⟩

end Decoder

namespace KeyEvent

variable {events : List KeyEvent} {e : KeyEvent} {code : ℕ} {ext : Bool}

theorem held_append : held (events ++ [e]) code ext =
    if e.code = code ∧ e.ext = ext then e.press else held events code ext := by
  rw [held, List.filter_append, List.getLast?_append]
  by_cases he : e.code = code ∧ e.ext = ext
  · rw [if_pos he, List.filter_cons_of_pos (by simpa using he)]
    rfl
  · rw [if_neg he, List.filter_cons_of_neg (by simpa using he)]
    rfl

theorem text_append : text (events ++ [e]) = text events ++ (typed (events ++ [e])).toList := by
  have hlast : (events ++ [e]).inits = events.inits ++ [events ++ [e]] := by
    rw [List.inits_append]
    rfl
  rw [text, hlast, List.filterMap_append, List.filterMap_cons, text]
  cases typed (events ++ [e]) <;> rfl

/-- The last event types its form, if it is a press and the form can be seen. -/
theorem typed_append : typed (events ++ [e]) =
    if e.press ∧ form (events ++ [e]) e ≠ inv then some (form (events ++ [e]) e) else none := by
  rw [typed, List.getLast?_concat]
  by_cases hpress : e.press
  · by_cases hinv : form (events ++ [e]) e = inv
    · rw [if_neg fun h => h.2 hinv]
      simp only [Option.bind_eq_bind, Option.bind_some, assert_pos hpress, assert_neg (not_not_intro hinv), Option.bind_none]
    · rw [if_pos ⟨hpress, hinv⟩]
      simp only [Option.bind_eq_bind, Option.bind_some, assert_pos hpress, assert_pos hinv, Option.pure_def]
  · rw [if_neg fun h => hpress h.1]
    simp only [Option.bind_eq_bind, Option.bind_some, assert_neg hpress, Option.bind_none]

theorem keymapChar_of_lt (h : keyPrintScreen < code) (shift : Bool) : keymapChar code shift = inv := by
  rw [keymapChar, List.getD_eq_default _ _ h]
  cases shift <;> rfl

theorem not_isLetter_of_inv (h : keymapChar code false = inv) : ¬IsLetter code := by
  rw [IsLetter, h]
  decide

/-- Letters have their upper-case forms next to them in `keymap`. -/
theorem toUpper_of_isLetter (h : IsLetter code) : (keymapChar code false).toUpper = keymapChar code true ∧
    keymapChar code false ≠ keymapChar code true ∧ keymapChar code false ≠ inv ∧ keymapChar code true ≠ inv := by
  have hall : ∀ code < 96, IsLetter code → (keymapChar code false).toUpper = keymapChar code true ∧
      keymapChar code false ≠ keymapChar code true ∧ keymapChar code false ≠ inv ∧ keymapChar code true ≠ inv := by
    decide +kernel
  rcases Nat.lt_or_ge code 96 with hlt | hge
  · exact hall code hlt h
  · exact absurd h (not_isLetter_of_inv (keymapChar_of_lt hge false))

/-- The form of a letter is found in `keymap`. -/
theorem form_of_isLetter (he : e.ext = false) (h : IsLetter e.code) :
    form events e = keymapChar e.code (xor (shift events) (caps events)) := by
  rw [form, if_neg (by rw [he]; exact Bool.noConfusion), if_pos h, (toUpper_of_isLetter h).1]
  cases xor (shift events) (caps events) <;> rfl

/-- Only its own key changes Caps Lock. -/
theorem caps_append (h : e.code ≠ keyCapslock) : caps (events ++ [e]) = caps events := by
  have hne : e ≠ ⟨keyCapslock, false, true⟩ := fun heq => h (congrArg code heq)
  rw [caps, List.countP_append, List.countP_singleton, if_neg (by simpa using hne)]
  rfl

end KeyEvent

namespace Keyboard

variable {s : Keyboard} {d : Decoder} {b : Byte}

/-- The column of a key. -/
def column (ext : Bool) : ℕ := if ext then 3 else 2

theorem column_inj {ext ext' : Bool} : column ext = column ext' ↔ ext = ext' := by
  cases ext <;> cases ext' <;> decide

@[simp] theorem held_lock (makecode : ℕ) : (s.lock makecode).held = s.held := by
  rw [lock]
  split
  · rfl
  · split
    · rfl
    · split <;> rfl

@[simp] theorem extcode_lock (makecode : ℕ) : (s.lock makecode).extcode = s.extcode := by
  rw [lock]
  split
  · rfl
  · split
    · rfl
    · split <;> rfl

@[simp] theorem fifo_lock (makecode : ℕ) : (s.lock makecode).fifo = s.fifo := by
  rw [lock]
  split
  · rfl
  · split
    · rfl
    · split <;> rfl

/-- What a press types, with the keys that are held then. -/
def types (s : Keyboard) (code : ℕ) (ext : Bool) : Option Char :=
  let ch := if ext ∧ code ≠ keySlash then keymapChar code true else keymapChar code s.shiftState
  if ch = inv then none else some ch

theorem put_types (u : Keyboard) (code : ℕ) (ext : Bool) :
    (if (if ext = true ∧ code ≠ keySlash then keymapChar code true else keymapChar code u.shiftState) = inv then u
      else { u with fifo := u.fifo ++
        [if ext = true ∧ code ≠ keySlash then keymapChar code true else keymapChar code u.shiftState] }) =
      { u with fifo := u.fifo ++ (u.types code ext).toList } := by
  rw [types]
  generalize (if ext = true ∧ code ≠ keySlash then keymapChar code true else keymapChar code u.shiftState) = ch
  by_cases hinv : ch = inv
  · simp only [if_pos hinv, Option.toList_none, List.append_nil]
  · simp only [if_neg hinv, Option.toList_some]

/-- The bits of a scan code. -/
theorem scancode_bits : ∀ n < 256, ∀ ext : Bool, (if ext then n ||| 0xE000 else n) &&& 0x7F = n % 128 ∧
    ((if ext then n ||| 0xE000 else n) &&& 0x80 ≠ 0 ↔ 128 ≤ n) := by
  decide +kernel

/-- **The handler** on a byte of a key. -/
theorem handler_of_ne (h : b.toNat ≠ 0xE0) : s.handler b =
    if keyPrintScreen < b.toNat % 128 then { s with extcode := false }
    else if 128 ≤ b.toNat then { s with extcode := false }.setHeld (b.toNat % 128) (column s.extcode) false
    else
      let u := ({ s with extcode := false }.setHeld (b.toNat % 128) (column s.extcode) true).lock (b.toNat % 128)
      { u with fifo := u.fifo ++ (u.types (b.toNat % 128) s.extcode).toList } := by
  obtain ⟨hcode, hbreak⟩ := scancode_bits b.toNat b.isLt s.extcode
  have hprint : b.toNat % 128 ≠ codePrintScreenDown := by
    have hlt : b.toNat % 128 < 128 := Nat.mod_lt _ (by decide)
    rw [codePrintScreenDown]
    omega
  rw [handler, if_neg h]
  simp only [hcode, if_neg hprint, hbreak]
  split
  · rfl
  · split
    · rfl
    · have hext : ((if s.extcode then 3 else 2 : ℕ) = 3) ↔ s.extcode = true := by cases s.extcode <;> decide
      simp only [hext]
      exact put_types _ _ _

/-- **The keyboard follows the decoder**: it knows which keys are held, and it has typed what the events type. -/
structure Decodes (s : Keyboard) (d : Decoder) : Prop where
  /-- The keys. -/
  held : ∀ code ≤ keyPrintScreen, ∀ ext, s.held code (column ext) = KeyEvent.held d.events code ext
  /-- The characters. -/
  fifo : s.fifo = KeyEvent.text d.events

/-- The byte says that a letter is pressed under Caps Lock. -/
def LetterUnderCaps (d : Decoder) (b : Byte) : Prop :=
  b.toNat < 128 ∧ d.pending = false ∧ KeyEvent.IsLetter b.toNat ∧ KeyEvent.caps d.events = true

/-- The keyboard follows the decoder, and both wait for the same kind of byte. -/
def Together (p : Keyboard × Decoder) : Prop := Decodes p.1 p.2 ∧ p.1.extcode = p.2.pending

/-- The event of a byte. -/
def event (d : Decoder) (b : Byte) : KeyEvent := ⟨b.toNat % 128, d.pending, b.toNat < 128⟩

theorem read_of_ne (h : b.toNat ≠ 0xE0) : d.read b = ⟨false, d.events ++ [event d b]⟩ := by
  rw [Decoder.read, if_neg h]
  rfl

/-- After a byte of a key the handler and the decoder agree on which keys are held. -/
theorem held_handler (h : Decodes s d) (hext : s.extcode = d.pending) (hb : b.toNat ≠ 0xE0) {code : ℕ}
    (hcode : code ≤ keyPrintScreen) (ext : Bool) :
    (s.handler b).held code (column ext) = KeyEvent.held (d.events ++ [event d b]) code ext := by
  rw [KeyEvent.held_append, handler_of_ne hb, hext]
  by_cases hlast : keyPrintScreen < b.toNat % 128
  · have hne : (event d b).code ≠ code := by
      have hcode' : (event d b).code = b.toNat % 128 := rfl
      omega
    rw [if_pos hlast, if_neg (fun he => absurd he.1 hne)]
    exact h.held code hcode ext
  · have hkey : (code = b.toNat % 128 ∧ column ext = column d.pending) ↔
        (event d b).code = code ∧ (event d b).ext = ext := by
      rw [column_inj]
      exact and_congr eq_comm eq_comm
    rw [if_neg hlast]
    split
    next hbreak =>
      simp only [setHeld, hkey, h.held code hcode ext]
      refine if_congr Iff.rfl ?_ rfl
      exact (decide_eq_false (by omega)).symm
    next hmake =>
      simp only [held_lock, setHeld, hkey, h.held code hcode ext]
      refine if_congr Iff.rfl ?_ rfl
      exact (decide_eq_true (by omega)).symm

/-- What a press types is what the decoder says, unless a letter is pressed under Caps Lock. -/
theorem types_eq_iff {u : Keyboard} (hpress : b.toNat < 128)
    (hshift : u.shiftState = KeyEvent.shift (d.events ++ [event d b])) :
    u.types b.toNat d.pending = KeyEvent.typed (d.events ++ [event d b]) ↔ ¬LetterUnderCaps d b := by
  have hcode : (event d b).code = b.toNat := Nat.mod_eq_of_lt hpress
  have hext : (event d b).ext = d.pending := rfl
  have htyped : KeyEvent.typed (d.events ++ [event d b]) =
      let ch := KeyEvent.form (d.events ++ [event d b]) (event d b)
      if ch = inv then none else some ch := by
    rw [KeyEvent.typed_append]
    simp only [event, decide_eq_true hpress, true_and, ne_eq, ite_not]
  rw [htyped, types, hshift]
  by_cases hletter : d.pending = false ∧ KeyEvent.IsLetter b.toNat
  · obtain ⟨hplain, hletter⟩ := hletter
    obtain ⟨-, hne, hlow, hup⟩ := KeyEvent.toUpper_of_isLetter hletter
    have hseen : ∀ shift, keymapChar b.toNat shift ≠ inv := fun shift => by cases shift <;> assumption
    have hinj : ∀ x y, keymapChar b.toNat x = keymapChar b.toNat y ↔ x = y := by
      intro x y
      cases x <;> cases y <;> simp [hne, hne.symm]
    have hcaps : KeyEvent.caps (d.events ++ [event d b]) = KeyEvent.caps d.events := by
      refine KeyEvent.caps_append fun heq => ?_
      rw [hcode] at heq
      rw [heq] at hletter
      exact absurd hletter (by decide)
    have hthere : ¬(d.pending = true ∧ b.toNat ≠ keySlash) := fun h => Bool.noConfusion (hplain.symm.trans h.1)
    rw [KeyEvent.form_of_isLetter (hext.trans hplain) (hcode.symm ▸ hletter), hcode, hcaps]
    simp only [if_neg hthere, if_neg (hseen _), Option.some.injEq, hinj]
    have hunder : LetterUnderCaps d b ↔ KeyEvent.caps d.events = true :=
      ⟨fun h => h.2.2.2, fun h => ⟨hpress, hplain, hletter, h⟩⟩
    rw [hunder]
    cases KeyEvent.shift (d.events ++ [event d b]) <;> cases KeyEvent.caps d.events <;> decide
  · refine iff_of_true ?_ fun h => hletter ⟨h.2.1, h.2.2.1⟩
    have hform : KeyEvent.form (d.events ++ [event d b]) (event d b) =
        if d.pending = true ∧ b.toNat ≠ keySlash then keymapChar b.toNat true
        else keymapChar b.toNat (KeyEvent.shift (d.events ++ [event d b])) := by
      rw [KeyEvent.form, hext, hcode]
      cases hpending : d.pending with
      | false =>
        rw [if_neg (by decide), if_neg fun h => hletter ⟨hpending, h⟩, if_neg (by simp)]
      | true =>
        rw [if_pos rfl]
        by_cases hslash : b.toNat = keySlash
        · rw [if_neg fun h => h.2 hslash]
          simp [hslash]
        · rw [if_pos ⟨rfl, hslash⟩]
          simp [hslash]
    rw [hform]

theorem toList_injective : Function.Injective (Option.toList : Option Char → List Char) := by
  rintro (_ | x) (_ | y) h
  · rfl
  · exact absurd h (by simp)
  · exact absurd h (by simp)
  · exact congrArg some (List.head_eq_of_cons_eq h)

/-- What a byte of a key types. -/
theorem fifo_handler (h : Together (s, d)) (hb : b.toNat ≠ 0xE0) :
    ∃ ch, (s.handler b).fifo = s.fifo ++ ch.toList ∧
      (ch = KeyEvent.typed (d.events ++ [event d b]) ↔ ¬LetterUnderCaps d b) := by
  obtain ⟨hdec, hext⟩ := h
  by_cases hlast : keyPrintScreen < b.toNat % 128
  · -- there is no such key in `keymap`
    have hinv := KeyEvent.keymapChar_of_lt hlast
    have hletter : ¬KeyEvent.IsLetter (b.toNat % 128) := KeyEvent.not_isLetter_of_inv (hinv false)
    have hform : KeyEvent.form (d.events ++ [event d b]) (event d b) = inv := by
      rw [KeyEvent.form]
      split
      · exact hinv _
      · exact (if_neg hletter).trans (hinv _)
    refine ⟨none, ?_, iff_of_true ?_ fun hunder => hletter ?_⟩
    · rw [handler_of_ne hb, if_pos hlast]
      exact (List.append_nil _).symm
    · rw [KeyEvent.typed_append, if_neg fun h => h.2 hform]
    · rw [Nat.mod_eq_of_lt hunder.1]
      exact hunder.2.2.1
  · by_cases hbreak : 128 ≤ b.toNat
    · refine ⟨none, ?_, iff_of_true ?_ fun hunder => absurd hunder.1 (by omega)⟩
      · rw [handler_of_ne hb, if_neg hlast, if_pos hbreak]
        exact (List.append_nil _).symm
      · have hup : (event d b).press = false := decide_eq_false (by omega)
        rw [KeyEvent.typed_append, if_neg fun h => Bool.noConfusion (hup.symm.trans h.1)]
    · have hcode : b.toNat % 128 = b.toNat := Nat.mod_eq_of_lt (by omega)
      have hheld : ∀ code ≤ keyPrintScreen, ∀ ext, (s.handler b).held code (column ext) =
          KeyEvent.held (d.events ++ [event d b]) code ext := fun code h ext => held_handler hdec hext hb h ext
      rw [handler_of_ne hb, if_neg hlast, if_neg hbreak, hcode, hext] at hheld
      rw [handler_of_ne hb, if_neg hlast, if_neg hbreak, hcode, hext]
      refine ⟨_, ?_, types_eq_iff (by omega)
        (congrArg₂ or (hheld keyShiftL (by decide) false) (hheld keyShiftR (by decide) false))⟩
      simp only [fifo_lock]
      rfl

/-- **A byte**: the handler goes on following the decoder exactly when no letter is pressed under Caps Lock. -/
theorem decodes_handler_iff (h : Together (s, d)) (b : Byte) :
    Decodes (s.handler b) (d.read b) ↔ ¬LetterUnderCaps d b := by
  by_cases hb : b.toNat = 0xE0
  · rw [handler, if_pos hb, Decoder.read, if_pos hb]
    exact iff_of_true ⟨h.1.held, h.1.fifo⟩ fun hunder => absurd hunder.1 (by omega)
  · obtain ⟨ch, hfifo, hiff⟩ := fifo_handler h hb
    rw [← hiff, read_of_ne hb]
    constructor
    · intro hdec
      have htext := hdec.fifo
      rw [KeyEvent.text_append, hfifo, h.1.fifo] at htext
      exact toList_injective (List.append_cancel_left htext)
    · rintro rfl
      exact ⟨fun code hcode ext => held_handler h.1 h.2 hb hcode ext, by rw [KeyEvent.text_append, hfifo, h.1.fifo]⟩

/-- Both wait for the same kind of byte. -/
theorem extcode_handler (s : Keyboard) (d : Decoder) (b : Byte) : (s.handler b).extcode = (d.read b).pending := by
  by_cases hb : b.toNat = 0xE0
  · rw [handler, if_pos hb, Decoder.read, if_pos hb]
  · rw [handler_of_ne hb, read_of_ne hb]
    split
    · rfl
    · split
      · rfl
      · exact extcode_lock _

/-- The handler and the decoder. -/
def both (p : Keyboard × Decoder) (b : Byte) : Keyboard × Decoder := (p.1.handler b, p.2.read b)

/-- **When Caps Lock matters**: after each of the bytes the handler has been given it knows which keys are held and has
put into the ring what the decoder says, exactly when none of the bytes is the press of a letter under Caps Lock. -/
theorem decodes_iff (bs : List Byte) :
    (∀ pre, pre <+: bs → Decodes (pre.foldl handler init) (pre.foldl Decoder.read Decoder.init)) ↔
      ∀ pre b, pre ++ [b] <+: bs → ¬LetterUnderCaps (pre.foldl Decoder.read Decoder.init) b := by
  have hstart : Together (init, Decoder.init) := ⟨⟨fun _ _ _ => rfl, rfl⟩, rfl⟩
  have hstream : (∀ pre, pre <+: bs →
        Decodes (pre.foldl both (init, Decoder.init)).1 (pre.foldl both (init, Decoder.init)).2) ↔
      ∀ pre b, pre ++ [b] <+: bs → ¬LetterUnderCaps (pre.foldl both (init, Decoder.init)).2 b := by
    refine Stream.forall_prefix_iff Together (P := fun p => Decodes p.1 p.2) (G := fun p b => ¬LetterUnderCaps p.2 b)
      (fun _ h => h.1) (fun p b h => ?_) (fun p b h hdec => ?_) bs (init, Decoder.init) hstart
    · exact decodes_handler_iff h b
    · exact ⟨hdec, extcode_handler p.1 p.2 b⟩
  have hboth : ∀ pre : List Byte, pre.foldl both (init, Decoder.init) =
      (pre.foldl handler init, pre.foldl Decoder.read Decoder.init) := fun pre => Stream.foldl_prod pre _ _
  simp only [hboth] at hstream
  exact hstream

/-- **Caps Lock does nothing**: Caps Lock and `a` are typed as `a`. -/
theorem capslock_ignored : ¬∀ pre, pre <+: [0x3A#8, 0xBA#8, 0x1E#8] →
    Decodes (pre.foldl handler init) (pre.foldl Decoder.read Decoder.init) := by
  intro h
  have htext := (h [0x3A#8, 0xBA#8, 0x1E#8] (List.prefix_refl _)).fifo
  exact absurd htext (by decide)

end Keyboard

end Onixs
