/-
Formatted output.  `write_uint_base` fills a buffer of 32 cells from the back,
`kprintf` walks its format once.  A conversion that the end of the format cuts
short makes the walk step over the terminator.
-/
import Mathlib.Data.Nat.Digits.Lemmas

namespace Orion

/-- `"0123456789abcdef"`. -/
def digitChars : List UInt8 :=
  [48, 49, 50, 51, 52, 53, 54, 55, 56, 57, 97, 98, 99, 100, 101, 102]

def digitChar (d : Nat) : UInt8 := digitChars.getD d 0

/-- `char buf[32]`: the cells that have been stored to. -/
abbrev DigitBuf := Nat → Option UInt8

/-- `while (value > 0) buf[i--] = digits[value % base], value /= base;`.  The
first argument is `i + 1`; a store at `i = -1` is outside of the buffer. -/
def writeDigits (base : UInt32) :
    Nat → UInt32 → DigitBuf → Option (Nat × DigitBuf)
  | 0, value, buf => if value = 0 then some (0, buf) else none
  | i + 1, value, buf =>
      if value = 0 then some (i + 1, buf)
      else writeDigits base i (value / base)
        (Function.update buf i (some (digitChar (value % base).toNat)))

/-- The text from cell `i` up to its terminator; a cell that has not been
stored to, or cell 32, must not be read. -/
def cellsText (buf : DigitBuf) : Nat → Nat → Option (List UInt8)
  | 0, _ => none
  | left + 1, i =>
      (buf i).bind fun c =>
        if c = 0 then some []
        else (cellsText buf left (i + 1)).map (c :: ·)

/-- `serial_write`: a line feed is sent as carriage return and line feed. -/
def serialWrite (text : List UInt8) : List UInt8 :=
  text.flatMap fun c => if c = 10 then [13, 10] else [c]

/-- What `write_uint_base` sends; none if it leaves its buffer. -/
def writeUintBase (value base : UInt32) (width : Int) (pad : UInt8) :
    Option (List UInt8) :=
  let buf : DigitBuf := Function.update (fun _ => none) 31 (some 0)
  let filled :=
    if value = 0 then some (30, Function.update buf 30 (some 48))
    else writeDigits base 31 value buf
  filled.bind fun (start, buf) =>
    let len : Int := 31 - start
    (cellsText buf (32 - start) start).map fun text =>
      List.replicate (width - len).toNat pad ++ serialWrite text

section Digits

variable {buf : DigitBuf} {base : UInt32}

theorem cellsText_update {i j : Nat} (c : Option UInt8) (left : Nat)
    (hij : i < j) :
    cellsText (Function.update buf i c) left j = cellsText buf left j := by
  induction left generalizing j with
  | zero => rfl
  | succ left ih =>
      rw [cellsText, cellsText, Function.update_of_ne (by omega),
        ih (Nat.lt_succ_of_lt hij)]

theorem digitChar_ne_zero {d : Nat} (hd : d < 16) : digitChar d ≠ 0 := by
  revert d
  decide

/-- A digit goes before the text that the buffer holds. -/
theorem cellsText_store {i d : Nat} {text : List UInt8} (hi : i < 32)
    (hd : d < 16) (htext : cellsText buf (32 - (i + 1)) (i + 1) = some text) :
    cellsText (Function.update buf i (some (digitChar d))) (32 - i) i =
      some (digitChar d :: text) := by
  obtain ⟨left, hleft⟩ : ∃ left, 32 - i = left + 1 := ⟨31 - i, by omega⟩
  have hrest : 32 - (i + 1) = left := by omega
  rw [hrest] at htext
  rw [hleft, cellsText, Function.update_self, Option.bind_some,
    if_neg (digitChar_ne_zero hd), cellsText_update _ _ i.lt_succ_self, htext]
  rfl

/-- The division loop puts the digits before the text, if they fit. -/
theorem writeDigits_spec (hone : 1 < base.toNat) (hbase : base.toNat ≤ 16)
    {next : Nat} {value : UInt32} {text : List UInt8} (hnext : next ≤ 31)
    (hfit : value.toNat < base.toNat ^ next)
    (htext : cellsText buf (32 - next) next = some text) :
    ∃ buf', writeDigits base next value buf =
        some (next - (base.toNat.digits value.toNat).length, buf') ∧
      (base.toNat.digits value.toNat).length ≤ next ∧
      cellsText buf' (32 - (next - (base.toNat.digits value.toNat).length))
          (next - (base.toNat.digits value.toNat).length) =
        some ((base.toNat.digits value.toNat).reverse.map digitChar ++
          text) := by
  induction next generalizing value buf text with
  | zero =>
      obtain rfl : value = 0 := UInt32.toNat_inj.mp (by simpa using hfit)
      exact ⟨buf, by simp [writeDigits], by simp, by simpa using htext⟩
  | succ i ih =>
      by_cases hzero : value = 0
      · subst hzero
        exact ⟨buf, by simp [writeDigits], by simp, by simpa using htext⟩
      · have hpos : 0 < value.toNat :=
          Nat.pos_of_ne_zero fun h => hzero (UInt32.toNat_inj.mp h)
        have hdigits : base.toNat.digits value.toNat =
            (value % base).toNat :: base.toNat.digits (value / base).toNat := by
          rw [Nat.digits_def' hone hpos, UInt32.toNat_mod, UInt32.toNat_div]
        have hdigit : (value % base).toNat < 16 := by
          rw [UInt32.toNat_mod]
          exact (Nat.mod_lt _ (by omega)).trans_le hbase
        have hquotient : (value / base).toNat < base.toNat ^ i := by
          rw [UInt32.toNat_div]
          exact Nat.div_lt_of_lt_mul (by rwa [← Nat.pow_succ'])
        obtain ⟨buf', hrun, hlength, hcells⟩ := ih (by omega) hquotient
          (cellsText_store (by omega) hdigit htext)
        refine ⟨buf', ?_, ?_, ?_⟩
        all_goals rw [hdigits, List.length_cons]
        · rw [writeDigits, if_neg hzero, hrun, Nat.add_sub_add_right]
        · omega
        · rw [Nat.add_sub_add_right, hcells]
          simp

end Digits

theorem serialWrite_digits {digits : List Nat} (hsmall : ∀ d ∈ digits, d < 16) :
    serialWrite (digits.map digitChar) = digits.map digitChar := by
  have hfeed : ∀ d < 16, digitChar d ≠ 10 := by decide
  induction digits with
  | nil => rfl
  | cons d digits ih =>
      rw [List.forall_mem_cons] at hsmall
      have hhead : serialWrite ((d :: digits).map digitChar) =
          digitChar d :: serialWrite (digits.map digitChar) := by
        simp [serialWrite, hfeed d hsmall.1]
      rw [hhead, ih hsmall.2, List.map_cons]

/-- The digits of a value, most significant first. -/
def numeral (base value : Nat) : List Nat :=
  if value = 0 then [0] else (base.digits value).reverse

/-- The buffer has room for every 32-bit value, and what stands in it at the
end is the numeral. -/
theorem writeUintBase_eq (value : UInt32) {base : UInt32}
    (hbase : base = 10 ∨ base = 16) (width : Int) (pad : UInt8) :
    writeUintBase value base width pad = some (
      List.replicate
        (width - (numeral base.toNat value.toNat).length).toNat pad ++
      (numeral base.toNat value.toNat).map digitChar) := by
  have hone : 1 < base.toNat := by rcases hbase with rfl | rfl <;> decide
  have hle : base.toNat ≤ 16 := by rcases hbase with rfl | rfl <;> decide
  by_cases hzero : value = 0
  · subst hzero
    rfl
  have hpositive : value.toNat ≠ 0 := fun h => hzero (UInt32.toNat_inj.mp h)
  have hfit : value.toNat < base.toNat ^ 31 :=
    value.toNat_lt.trans_le ((by decide : 2 ^ 32 ≤ 10 ^ 31).trans
      (Nat.pow_le_pow_left (by rcases hbase with rfl | rfl <;> decide) 31))
  have hempty : cellsText (Function.update (fun _ => none) 31 (some 0)) 1 31 =
    some [] := rfl
  obtain ⟨buf, hrun, hlength, hcells⟩ :=
    writeDigits_spec hone hle le_rfl hfit hempty
  have hsmall : ∀ d ∈ (base.toNat.digits value.toNat).reverse, d < 16 :=
    fun d hd => (Nat.digits_lt_base hone (List.mem_reverse.mp hd)).trans_le hle
  rw [List.append_nil] at hcells
  simp only [writeUintBase, if_neg hzero, hrun, Option.bind_some, hcells,
    Option.map_some, serialWrite_digits hsmall, numeral, if_neg hpositive,
    List.length_reverse]
  congr 4
  omega

/-- What can go wrong in `kprintf`: a read beyond the terminator of the format,
a number outside of its buffer, a loop without end. -/
inductive PrintFault where
  | outside
  | buffer
  | endless
  deriving DecidableEq, Repr

def isDigit (c : UInt8) : Bool := 48 ≤ c && c ≤ 57

/-- `if (*p == '0') { pad = '0'; p++; }` -/
def padFlag : List UInt8 → UInt8 × List UInt8
  | [] => (32, [])
  | c :: p => if c = 48 then (48, p) else (32, c :: p)

/-- The loop over the digits of the width. -/
def scanWidth : Int32 → List UInt8 → Int32 × List UInt8
  | width, [] => (width, [])
  | width, c :: p =>
      if isDigit c then scanWidth (width * 10 + Int32.ofNat (c.toNat - 48)) p
      else (width, c :: p)

section Format

variable (args : Nat → UInt32) (strings : UInt32 → List UInt8)

/-- The conversion `c`, of which the arguments before `used` are consumed: what
is sent, and how many arguments are consumed then. -/
def conversion (used : Nat) (pad : UInt8) (width : Int32) (c : UInt8) :
    Option (List UInt8 × Nat) :=
  let v := args used
  if c = 99 then some ([v.toUInt8], used + 1)
  else if c = 115 then
    -- the text for a null pointer is "(null)"
    let text := if v = 0 then [40, 110, 117, 108, 108, 41] else strings v
    some (serialWrite text, used + 1)
  else if c = 100 then
    if 0x80000000 ≤ v then
      (writeUintBase (-v) 10 width.toInt pad).map fun sent =>
        (45 :: sent, used + 1)
    else (writeUintBase v 10 width.toInt pad).map fun sent => (sent, used + 1)
  else if c = 117 then
    (writeUintBase v 10 width.toInt pad).map fun sent => (sent, used + 1)
  else if c = 120 then
    (writeUintBase v 16 width.toInt pad).map fun sent =>
      (serialWrite [48, 120] ++ sent, used + 1)
  else if c = 112 then
    (writeUintBase v 16 8 48).map fun sent =>
      (serialWrite [48, 120] ++ sent, used + 1)
  else if c = 37 then some ([37], used)
  else some ([37, c], used)

/-- The loop over the format; `p` is what is left of it, terminator included.
The default conversion steps over the terminator, too. -/
def kprintfLoop : Nat → Nat → List UInt8 → Except PrintFault (List UInt8)
  | 0, _, _ => .error .endless
  | _ + 1, _, [] => .error .outside
  | fuel + 1, used, c :: p =>
      if c = 0 then .ok []
      else if c ≠ 37 then (kprintfLoop fuel used p).map (c :: ·)
      else
        match scanWidth 0 (padFlag p).2 with
        | (_, []) => .error .outside
        | (width, c :: rest) =>
            match conversion args strings used (padFlag p).1 width c with
            | none => .error .buffer
            | some (sent, used) =>
                (kprintfLoop fuel used rest).map (sent ++ ·)

/-- What `kprintf` sends for a format that ends with its terminator.  `args` are
the arguments as words, and `strings` the texts that they point to. -/
def kprintf (fmt : List UInt8) : Except PrintFault (List UInt8) :=
  kprintfLoop args strings (fmt.length + 1) 0 fmt

end Format

/-- Every `%` of a text is followed, after any digits, by a character that ends
the conversion; `inside` says that the text starts inside of one. -/
def complete : Bool → List UInt8 → Bool
  | inside, [] => !inside
  | false, c :: text => complete (c = 37) text
  | true, c :: text => complete (isDigit c) text

theorem conversion_total (args : Nat → UInt32) (strings : UInt32 → List UInt8)
    (used : Nat) (pad : UInt8) (width : Int32) (c : UInt8) :
    ∃ sent used', conversion args strings used pad width c =
      some (sent, used') := by
  simp only [conversion, writeUintBase_eq _ (Or.inl rfl),
    writeUintBase_eq _ (Or.inr rfl), Option.map_some]
  split_ifs <;> exact ⟨_, _, rfl⟩

/-- Pad flag and width end before the terminator, inside of the same
conversion. -/
theorem scanWidth_spec (width : Int32) {text : List UInt8} (hzero : 0 ∉ text) :
    ∃ width' rest, scanWidth width (text ++ [0]) = (width', rest ++ [0]) ∧
      rest <:+ text ∧ complete true rest = complete true text ∧
      ∀ c tail, rest = c :: tail → isDigit c = false := by
  induction text generalizing width with
  | nil => exact ⟨width, [], rfl, List.suffix_rfl, rfl, nofun⟩
  | cons c text ih =>
      cases hdigit : isDigit c with
      | false =>
          refine ⟨width, c :: text, by simp [scanWidth, hdigit],
            List.suffix_rfl, rfl, ?_⟩
          rintro d tail heq
          obtain ⟨rfl, -⟩ := List.cons.inj heq
          exact hdigit
      | true =>
          obtain ⟨width', rest, hscan, hsuffix, hsame, hhead⟩ :=
            ih (width * 10 + Int32.ofNat (c.toNat - 48))
              fun hmem => hzero (List.mem_cons_of_mem c hmem)
          refine ⟨width', rest, ?_, hsuffix.trans (List.suffix_cons c text), ?_,
            hhead⟩
          · rw [List.cons_append, scanWidth, if_pos hdigit, hscan]
          · rw [hsame, complete, hdigit]

theorem padFlag_spec {text : List UInt8} :
    ∃ rest, (padFlag (text ++ [0])).2 = rest ++ [0] ∧ rest <:+ text ∧
      complete true rest = complete true text := by
  cases text with
  | nil => exact ⟨[], rfl, List.suffix_rfl, rfl⟩
  | cons c text =>
      by_cases hflag : c = 48
      · exact ⟨text, by simp [padFlag, hflag], List.suffix_cons c text,
          by simp [complete, isDigit, hflag]⟩
      · exact ⟨c :: text, by simp [padFlag, hflag], List.suffix_rfl, rfl⟩

theorem exists_ok_map {α β : Type} {result : Except PrintFault α} (f : α → β) :
    (∃ b, result.map f = .ok b) ↔ ∃ a, result = .ok a := by
  cases result with
  | error fault => exact ⟨nofun, nofun⟩
  | ok a => exact ⟨fun _ => ⟨a, rfl⟩, fun _ => ⟨f a, rfl⟩⟩

theorem kprintfLoop_ok_iff (args : Nat → UInt32) (strings : UInt32 → List UInt8)
    {fuel used : Nat} {text : List UInt8} (hfuel : text.length + 1 < fuel)
    (hzero : 0 ∉ text) :
    (∃ sent, kprintfLoop args strings fuel used (text ++ [0]) = .ok sent) ↔
      complete false text = true := by
  -- strong induction: a conversion consumes several characters at once
  induction fuel generalizing used text with
  | zero => omega
  | succ fuel ih =>
      cases text with
      | nil => simp [kprintfLoop, complete]
      | cons c text =>
          rw [List.length_cons] at hfuel
          rw [List.mem_cons, not_or] at hzero
          rw [List.cons_append, kprintfLoop, if_neg (Ne.symm hzero.1), complete]
          by_cases hpercent : c = 37
          · rw [if_neg (not_not.mpr hpercent), decide_eq_true hpercent]
            obtain ⟨flagged, hflag, hsuffix, hsame⟩ := @padFlag_spec text
            obtain ⟨width, rest, hscan, hsuffix', hsame', hhead⟩ :=
              scanWidth_spec 0 fun h => hzero.2 (hsuffix.subset h)
            rw [hflag, hscan, ← hsame, ← hsame']
            have hrest := hsuffix'.trans hsuffix
            have hlength := hrest.length_le
            cases rest with
            | nil =>
                -- the conversion steps over the terminator
                obtain ⟨sent, used', hsent⟩ := conversion_total args strings
                  used (padFlag (text ++ [0])).1 width 0
                obtain ⟨more, hmore⟩ : ∃ more, fuel = more + 1 :=
                  ⟨fuel - 1, by omega⟩
                simp [hsent, hmore, kprintfLoop, Except.map, complete]
            | cons d rest =>
                obtain ⟨sent, used', hsent⟩ := conversion_total args strings
                  used (padFlag (text ++ [0])).1 width d
                rw [List.length_cons] at hlength
                have hnext := @ih used' rest (by omega) fun h =>
                  hzero.2 (hrest.subset (List.mem_cons_of_mem d h))
                simp only [List.cons_append, hsent, exists_ok_map, hnext]
                rw [complete, hhead d rest rfl]
          · rw [if_pos hpercent, exists_ok_map, ih (by omega) hzero.2,
              decide_eq_false hpercent]

/-- `kprintf` returns without a read beyond the terminator exactly if the end of
the format does not cut a conversion short. -/
theorem kprintf_inside_iff (args : Nat → UInt32)
    (strings : UInt32 → List UInt8) (text : List UInt8) (hzero : 0 ∉ text) :
    (∃ sent, kprintf args strings (text ++ [0]) = .ok sent) ↔
      complete false text = true :=
  kprintfLoop_ok_iff args strings (by simp) hzero

namespace KprintfWitness

theorem width_and_percent : complete false [37, 48, 52, 120, 37, 37] = true ∧
    ∃ sent, kprintf (fun _ => 255) (fun _ => [])
      ([37, 48, 52, 120, 37, 37] ++ [0]) = .ok sent :=
  ⟨by decide, (kprintf_inside_iff (fun _ => 255) (fun _ => [])
    [37, 48, 52, 120, 37, 37] (by decide)).mpr (by decide)⟩

/-- The formats `%`, `%0` and `%12`. -/
theorem cut_short :
    kprintf (fun _ => 0) (fun _ => []) [37, 0] = .error .outside ∧
    kprintf (fun _ => 0) (fun _ => []) [37, 48, 0] = .error .outside ∧
    kprintf (fun _ => 0) (fun _ => []) [37, 49, 50, 0] = .error .outside :=
  ⟨rfl, rfl, rfl⟩

end KprintfWitness

end Orion
