import Labs.Jos.Printfmt

/-!
# What `vprintfmt` prints

`vprintfmt` prints a text that depends on the format and its arguments only, and returns, for every
format with a terminator (`prints_vprintfmt`). Each escape sequence leaves the format behind its
percent sign; an unknown one backs up to the place behind it, and not further.
-/

namespace Labs.Jos.Printfmt

open Prog CArray

section Numbers

variable {num : Nat} {base : Base} {width : BitVec 32} {padc : UInt8} {e : Escape}

/-- The digits of a number, the most significant one first. -/
def digits (base : Base) (num : Nat) : List UInt8 :=
  if base.value ≤ num then digits base (num / base.value) ++ [digit (num % base.value)]
  else [digit (num % base.value)]
termination_by num
decreasing_by
  have hbase := base.two_le
  exact Nat.div_lt_self (by omega) (by omega)

/-- A number of one digit. -/
theorem digits_small (h : num < base.value) : digits base num = [digit num] := by
  rw [digits, if_neg (Nat.not_le.2 h), Nat.mod_eq_of_lt h]

theorem digits_step (h : base.value ≤ num) :
    digits base num = digits base (num / base.value) ++ [digit (num % base.value)] := by
  rw [digits, if_pos h]

/-- What `printnum` prints. -/
def numText (num : Nat) (base : Base) (width : BitVec 32) (padc : UInt8) : List UInt8 :=
  List.replicate (width - BitVec.ofNat 32 (digits base num).length).toInt.toNat padc ++
    digits base num

/-- `printnum` counts the width down by one for each digit, and pads in front of the first one. -/
theorem prints_printnum :
    Prints (fun _ _ putch => printnum putch num base width padc) (numText num base width padc)
      () := by
  induction num using Nat.strongRecOn generalizing width with
  | _ num ih =>
      have hbase := base.two_le
      by_cases h : base.value ≤ num
      · have hfirst : Prints (fun _ _ putch =>
            printnum putch (num / base.value) base (width - 1) padc)
            (numText (num / base.value) base (width - 1) padc) () :=
          ih (num / base.value) (Nat.div_lt_self (by omega) (by omega))
        have hrec := Prints.seq hfirst (prints_put (digit (num % base.value)))
        -- one digit more and one place less: the padding is the same
        have htext : numText (num / base.value) base (width - 1) padc ++
            [digit (num % base.value)] = numText num base width padc := by
          have hwidth : width - 1 - BitVec.ofNat 32 (digits base (num / base.value)).length =
              width - BitVec.ofNat 32 (digits base num).length := by
            rw [digits_step h, List.length_append, List.length_singleton, BitVec.ofNat_add]
            simp only [BitVec.sub_eq_add_neg, BitVec.neg_add]
            ac_rfl
          rw [numText, numText, hwidth, digits_step h, List.append_assoc]
        rw [htext] at hrec
        intro σ ε putch
        dsimp only
        rw [printnum, if_pos h]
        exact hrec σ ε putch
      · have hpad := Prints.seq (prints_each (List.replicate (width - 1).toInt.toNat padc))
          (prints_put (digit (num % base.value)))
        have htext : List.replicate (width - 1).toInt.toNat padc ++ [digit (num % base.value)] =
            numText num base width padc := by
          rw [numText, digits, if_neg h]
          rfl
        rw [htext] at hpad
        intro σ ε putch
        dsimp only
        rw [printnum, if_neg h]
        exact hpad σ ε putch

/-- The sign is printed in front of the padding, and is not counted. -/
def signedText (num : BitVec 64) (e : Escape) : List UInt8 :=
  if num.toInt < 0 then byte '-' :: numText (-num).toNat .decimal e.width e.padc
  else numText num.toNat .decimal e.width e.padc

theorem prints_signed {num : BitVec 64} :
    Prints (fun _ _ putch => printSigned putch num e) (signedText num e) () := by
  unfold printSigned signedText
  by_cases h : num.toInt < 0
  · simp only [if_pos h]
    exact Prints.cons prints_printnum
  · simp only [if_neg h]
    exact prints_printnum

end Numbers

section Strings

variable {p : List UInt8} {e : Escape}

theorem prints_pad_string :
    ∃ w width, Prints (fun _ _ putch => padString putch p e) w width := by
  unfold padString
  by_cases h : 0 < e.width.toInt ∧ e.padc ≠ byte '-'
  · simp only [if_pos h]
    exact ⟨_, _, (prints_each _).return⟩
  · simp only [if_neg h]
    exact ⟨_, _, prints_pure _⟩

theorem prints_put_string (altflag : Bool) (precision width : BitVec 32) :
    ∃ w width', Prints (fun _ _ putch => putString putch altflag p precision width) w width' := by
  induction p generalizing precision width with
  | nil => exact ⟨_, _, prints_pure _⟩
  | cons ch p ih =>
      simp only [putString]
      split
      case isTrue => exact ⟨_, _, prints_pure _⟩
      case isFalse =>
        split
        case isTrue =>
          obtain ⟨w, width', hrest⟩ := ih precision (width - 1)
          exact ⟨_, _, hrest.cons⟩
        case isFalse =>
          split
          case isTrue =>
            obtain ⟨w, width', hrest⟩ := ih (precision - 1) (width - 1)
            exact ⟨_, _, hrest.cons⟩
          case isFalse => exact ⟨_, _, prints_pure _⟩

theorem prints_string : ∃ w, Prints (fun _ _ putch => printString putch p e) w () := by
  obtain ⟨w, width, hpad⟩ := prints_pad_string (p := p) (e := e)
  obtain ⟨w', width', hput⟩ := prints_put_string (p := p) e.altflag e.precision width
  exact ⟨_, hpad.bind (hput.bind (prints_each _))⟩

end Strings

section Flags

variable {fmt : List UInt8} {ch : UInt8} {precision : BitVec 32} {args : Nat → BitVec 32}

/-- The flags of an escape sequence have been read from `fmt`, and the terminator is not one of
them. -/
def Reads (fmt : List UInt8) (r : Option Switched) : Prop :=
  ∃ s used, r = some s ∧ fmt = used ++ s.ch :: s.fmt ∧ 0 ∉ used

theorem Reads.append {used : List UInt8} {r : Option Switched} (hused : 0 ∉ used)
    (h : Reads fmt r) : Reads (used ++ fmt) r := by
  obtain ⟨s, used', hr, hfmt, hzero⟩ := h
  refine ⟨s, used ++ used', hr, ?_, ?_⟩
  · rw [hfmt, List.append_assoc]
  · rw [List.mem_append]
    exact fun hmem => hmem.elim hused hzero

theorem Reads.cons {r : Option Switched} (hch : ch ≠ 0) (h : Reads fmt r) :
    Reads (ch :: fmt) r := by
  have hused : 0 ∉ [ch] := by
    rw [List.mem_singleton]
    exact hch.symm
  exact h.append hused

theorem ne_zero_of_is_digit (h : isDigit ch = true) : ch ≠ 0 := by
  intro hzero
  rw [hzero] at h
  cases h

/-- The loop of the width field stops at the terminator at the latest. -/
theorem read_digits_spec (ch : UInt8) (precision : BitVec 32) (hfmt : 0 ∈ fmt) :
    ∃ precision' used fmt', readDigits ch precision fmt = some (precision', fmt') ∧
      fmt = used ++ fmt' ∧ 0 ∉ used ∧ 0 ∈ fmt' := by
  induction fmt generalizing ch precision with
  | nil => cases hfmt
  | cons next fmt ih =>
      rw [readDigits]
      by_cases hnext : isDigit next = true
      · have hne := ne_zero_of_is_digit hnext
        obtain ⟨precision', used, fmt', hread, hsplit, hzero, hmem⟩ := ih next
          (addDigit precision ch) ((List.mem_cons.1 hfmt).resolve_left hne.symm)
        refine ⟨precision', next :: used, fmt', ?_, ?_, ?_, hmem⟩
        · rw [if_pos hnext, hread]
        · rw [hsplit, List.cons_append]
        · rw [List.mem_cons]
          exact fun h => h.elim hne.symm hzero
      · exact ⟨_, [], _, if_neg hnext, rfl, List.not_mem_nil, hfmt⟩

/-- Reading the flags ends in front of a character that is none, the terminator at the latest. -/
theorem reswitch_reads (args : Nat → BitVec 32) (hfmt : 0 ∈ fmt) (e : Escape) (ap : Nat) :
    Reads fmt (reswitch args fmt e ap) := by
  induction hn : fmt.length using Nat.strongRecOn generalizing fmt e ap with
  | _ n ih =>
      cases fmt with
      | nil => cases hfmt
      | cons ch fmt =>
          -- a flag is not the terminator, so that the terminator is behind it
          have hflag : ∀ e ap, ch ≠ 0 → Reads (ch :: fmt) (reswitch args fmt e ap) := by
            intro e ap hch
            exact (ih fmt.length (by rw [← hn]; exact Nat.lt_succ_self _)
              ((List.mem_cons.1 hfmt).resolve_left hch.symm) e ap rfl).cons hch
          have hbyte : ∀ {c : UInt8} (e ap), ch = c → c ≠ 0 →
              Reads (ch :: fmt) (reswitch args fmt e ap) :=
            fun e ap hc hne => hflag e ap (hc ▸ hne)
          rw [reswitch]
          split
          case isTrue h => exact hbyte _ _ h (by decide)
          split
          case isTrue h => exact hbyte _ _ h (by decide)
          split
          case isTrue h =>
            have hch := ne_zero_of_is_digit h
            obtain ⟨precision, used, fmt', hread, hsplit, hzero, hmem⟩ :=
              read_digits_spec ch 0 ((List.mem_cons.1 hfmt).resolve_left hch.symm)
            have hlength := read_digits_length hread
            have hrest := ih fmt'.length
              (by rw [← hn]; exact Nat.lt_succ_of_le hlength) hmem (processPrecision e precision)
              ap rfl
            rw [hread]
            rw [hsplit]
            exact (hrest.append hzero).cons hch
          split
          case isTrue h => exact hbyte _ _ h (by decide)
          split
          case isTrue h => exact hbyte _ _ h (by decide)
          split
          case isTrue h => exact hbyte _ _ h (by decide)
          split
          case isTrue h => exact hbyte _ _ h (by decide)
          case isFalse => exact ⟨_, [], rfl, rfl, List.not_mem_nil⟩

end Flags

section Escapes

variable {c : Call} {s : Switched} {i q n depth : Nat} {used : List UInt8}

/-- The scan for the percent sign stops behind the one that starts the escape sequence, or at one
after it. -/
theorem back_up_spec (hpercent : c.fmt[i]? = some (byte '%')) (hq : i < q) :
    ∃ j, backUp c.fmt q = some j ∧ i < j ∧ j ≤ q := by
  induction q with
  | zero => exact absurd hq (Nat.not_lt_zero _)
  | succ q ih =>
      rw [backUp]
      by_cases h : c.fmt[q]? = some (byte '%')
      · exact ⟨q + 1, if_pos h, hq, le_rfl⟩
      · rw [if_neg h]
        have hne : i ≠ q := by
          intro heq
          rw [heq] at hpercent
          exact h hpercent
        obtain ⟨j, hj, hlt, hle⟩ := ih (by omega)
        exact ⟨j, hj, hlt, Nat.le_succ_of_le hle⟩

/-- A conversion that the `switch` knows is followed by what is behind it in the format. -/
theorem prints_escape (depth : Nat)
    (herror : conversion s.ch = .error →
      ∀ err, ∃ w, Prints (fun _ _ putch => printError (vprintfmt putch depth) err) w true)
    (hknown : conversion s.ch ≠ .unrecognized) :
    ∃ w ap, Prints (fun _ _ putch => escape (vprintfmt putch depth) putch c s) w
      (some (s.fmt, ap)) := by
  unfold escape
  cases hch : conversion s.ch with
  | character => exact ⟨_, _, (prints_put _).return⟩
  | error =>
      obtain ⟨w, hw⟩ := herror hch (c.args s.ap)
      have hreturn := hw.bind (g := fun done _ _ _ =>
        pure (if done = true then some (s.fmt, s.ap + 1) else none)) (prints_pure _)
      exact ⟨_, _, hreturn⟩
  | string =>
      obtain ⟨w, hw⟩ := prints_string
        (p := if c.args s.ap = 0 then ascii "(null)" else c.text (c.args s.ap)) (e := s.e)
      exact ⟨_, _, hw.return⟩
  | signed => exact ⟨_, _, prints_signed.return⟩
  | unsigned base => exact ⟨_, _, prints_printnum.return⟩
  | pointer => exact ⟨_, _, (prints_printnum.return).cons.cons⟩
  | percent => exact ⟨_, _, (prints_put _).return⟩
  | unrecognized => exact absurd hch hknown

/-- Any other character prints a percent sign, and the format goes on behind the one that started
the escape sequence, at the terminator at the latest. -/
theorem prints_unrecognized (depth : Nat) (hpercent : c.fmt[i]? = some (byte '%'))
    (hread : c.fmt.drop (i + 1) = used ++ s.ch :: s.fmt)
    (hunknown : conversion s.ch = .unrecognized) :
    ∃ j, Prints (fun _ _ putch => escape (vprintfmt putch depth) putch c s) [byte '%']
        (some (c.fmt.drop j, s.ap)) ∧ i < j ∧ j ≤ i + 1 + used.length := by
  have hlength : c.fmt.length - s.fmt.length - 1 = i + 1 + used.length := by
    have h := congrArg List.length hread
    rw [List.length_drop, List.length_append, List.length_cons] at h
    omega
  obtain ⟨j, hj, hlt, hle⟩ :=
    back_up_spec hpercent (q := i + 1 + used.length) (by omega)
  refine ⟨j, ?_, hlt, hle⟩
  unfold escape
  rw [hunknown, hlength, hj]
  exact (prints_put _).return

/-- An escape sequence leaves the format behind its percent sign, and not behind the terminator. -/
theorem escape_advances
    (herror : ∀ err, ∃ w, Prints (fun _ _ putch => printError (vprintfmt putch depth) err) w true)
    (hpercent : c.fmt[i]? = some (byte '%')) (hn : c.fmt[n]? = some 0) (hi : i ≤ n)
    (hread : c.fmt.drop (i + 1) = used ++ s.ch :: s.fmt) (hzero : 0 ∉ used) :
    ∃ w j ap, Prints (fun _ _ putch => escape (vprintfmt putch depth) putch c s) w
        (some (c.fmt.drop j, ap)) ∧ i < j ∧ j ≤ n := by
  have hne : i ≠ n := by
    intro heq
    rw [heq, hn] at hpercent
    cases hpercent
  -- the terminator is not among the flags
  have hused : i + 1 + used.length ≤ n := by
    by_contra hlt
    have hget : (c.fmt.drop (i + 1))[n - (i + 1)]? = some 0 := by
      rw [List.getElem?_drop, ← hn]
      congr 1
      omega
    rw [hread, List.getElem?_append_left (by omega)] at hget
    exact hzero (List.mem_of_getElem? hget)
  cases hch : conversion s.ch with
  | unrecognized =>
      obtain ⟨j, hprints, hlt, hle⟩ := prints_unrecognized depth hpercent hread hch
      exact ⟨_, j, _, hprints, hlt, by omega⟩
  | _ =>
      obtain ⟨w, ap, hprints⟩ := prints_escape (c := c) (s := s) depth (fun _ => herror)
        (by rw [hch]; intro h; cases h)
      have hrest : s.fmt = c.fmt.drop (i + 1 + used.length + 1) := by
        rw [Nat.add_assoc (i + 1), ← List.drop_drop, hread, List.drop_append]
        simp
      have hlast : c.fmt[i + 1 + used.length]? = some s.ch := by
        rw [← List.getElem?_drop, hread, List.getElem?_append_right le_rfl, Nat.sub_self]
        rfl
      refine ⟨w, _, ap, hrest ▸ hprints, by omega, ?_⟩
      have hstop : i + 1 + used.length ≠ n := by
        intro heq
        rw [heq, hn] at hlast
        rw [← Option.some.inj hlast] at hch
        cases hch
      omega

end Escapes

section Loop

variable {c : Call} {s : Switched} {ch : UInt8} {fmt fmt' w w' : List UInt8}
  {depth fuel ap ap' : Nat}

theorem prints_loop_stop (fuel : Nat) (fmt : List UInt8) :
    Prints (fun _ _ putch => loop (vprintfmt putch depth) putch c (fuel + 1) (0 :: fmt) ap) []
      true :=
  fun _ _ _ => rfl

/-- A character in front of which the loop is not at an escape sequence. -/
theorem prints_loop_char (hpercent : ch ≠ byte '%') (hzero : ch ≠ 0)
    (h : Prints (fun _ _ putch => loop (vprintfmt putch depth) putch c fuel fmt ap) w true) :
    Prints (fun _ _ putch => loop (vprintfmt putch depth) putch c (fuel + 1) (ch :: fmt) ap)
      (ch :: w) true := by
  simp only [loop, if_neg hpercent, if_neg hzero]
  exact h.cons

/-- Characters up to an escape sequence or the terminator. -/
theorem prints_loop_text {text : List UInt8} (hpercent : byte '%' ∉ text) (hzero : 0 ∉ text)
    (h : Prints (fun _ _ putch => loop (vprintfmt putch depth) putch c fuel fmt ap) w true) :
    Prints (fun _ _ putch =>
      loop (vprintfmt putch depth) putch c (fuel + text.length) (text ++ fmt) ap) (text ++ w)
      true := by
  induction text with
  | nil => exact h
  | cons ch text ih =>
      simp only [List.mem_cons, not_or] at hpercent hzero
      exact prints_loop_char (Ne.symm hpercent.1) (Ne.symm hzero.1) (ih hpercent.2 hzero.2)

/-- An escape sequence, and what the loop prints behind it. -/
theorem prints_loop_escape (hread : reswitch c.args fmt {} ap = some s)
    (hescape : Prints (fun _ _ putch => escape (vprintfmt putch depth) putch c s) w
      (some (fmt', ap')))
    (h : Prints (fun _ _ putch => loop (vprintfmt putch depth) putch c fuel fmt' ap') w' true) :
    Prints (fun _ _ putch =>
      loop (vprintfmt putch depth) putch c (fuel + 1) (byte '%' :: fmt) ap) (w ++ w') true := by
  intro σ ε putch
  have hfirst := hescape σ ε putch
  have hbehind := h σ ε putch
  dsimp only at hfirst hbehind
  simp only [loop, if_pos, hread]
  rw [hfirst, bind_assoc, for_each_append, bind_assoc]
  simp only [pure_bind]
  rw [hbehind]

/-- From every place of the format up to its terminator, the loop prints some text and returns. -/
theorem prints_loop {n i : Nat} (ap : Nat)
    (herror : ∀ err, ∃ w, Prints (fun _ _ putch => printError (vprintfmt putch depth) err) w true)
    (hn : c.fmt[n]? = some 0) (hi : i ≤ n) (hfuel : n < i + fuel) :
    ∃ w, Prints (fun _ _ putch =>
      loop (vprintfmt putch depth) putch c fuel (c.fmt.drop i) ap) w true := by
  induction fuel generalizing i ap with
  | zero => omega
  | succ fuel ih =>
      obtain ⟨x, hget⟩ : ∃ x, c.fmt[i]? = some x := by
        have hlt := (List.getElem?_eq_some_iff.1 hn).1
        exact ⟨_, List.getElem?_eq_getElem (by omega)⟩
      have hdrop : c.fmt.drop i = x :: c.fmt.drop (i + 1) := by
        obtain ⟨hlt, hx⟩ := List.getElem?_eq_some_iff.1 hget
        rw [List.drop_eq_getElem_cons hlt, hx]
      rw [hdrop]
      by_cases hzero : x = 0
      · rw [hzero]
        exact ⟨_, prints_loop_stop _ _⟩
      have hne : i ≠ n := by
        intro heq
        rw [heq, hn] at hget
        exact hzero (Option.some.inj hget).symm
      by_cases hpercent : x = byte '%'
      · -- an escape sequence may end anywhere up to the terminator, but not behind it
        have hmem : 0 ∈ c.fmt.drop (i + 1) := by
          have hbehind : (c.fmt.drop (i + 1))[n - (i + 1)]? = some 0 := by
            rw [List.getElem?_drop, ← hn]
            congr 1
            omega
          exact List.mem_of_getElem? hbehind
        rw [hpercent] at hget ⊢
        obtain ⟨s, used, hread, hsplit, hused⟩ := reswitch_reads c.args hmem {} ap
        obtain ⟨w, j, ap', hescape, hij, hj⟩ :=
          escape_advances herror hget hn hi hsplit hused
        obtain ⟨w', hrest⟩ := ih (i := j) ap' hj (by omega)
        exact ⟨_, prints_loop_escape hread hescape hrest⟩
      · obtain ⟨w, hrest⟩ := ih (i := i + 1) ap (by omega) (by omega)
        exact ⟨_, prints_loop_char hpercent hzero hrest⟩

end Loop

section Returns

variable {c : Call} {e : Escape} {ch : UInt8} {fmt : List UInt8} {args : Nat → BitVec 32} {ap : Nat}

/-- No conversion is a digit. -/
theorem not_digit_of_conversion (h : conversion ch ≠ .unrecognized) : isDigit ch = false := by
  by_contra hd
  refine h ?_
  have hne : ∀ c : UInt8, isDigit c = false → ch ≠ c := by
    intro c hc heq
    rw [heq, hc] at hd
    exact hd rfl
  unfold conversion
  simp only [hne (byte 'c') rfl, hne (byte 'e') rfl, hne (byte 's') rfl, hne (byte 'd') rfl,
    hne (byte 'u') rfl, hne (byte 'o') rfl, hne (byte 'p') rfl, hne (byte 'x') rfl,
    hne (byte '%') rfl, if_false]

/-- No conversion is a flag. -/
theorem reswitch_conversion (h : conversion ch ≠ .unrecognized) :
    reswitch args (ch :: fmt) e ap = some ⟨ch, e, fmt, ap⟩ := by
  have hflag : ∀ c : UInt8, conversion c = .unrecognized → ch ≠ c := by
    intro c hc heq
    rw [heq] at h
    exact h hc
  have hdigit : ¬ isDigit ch = true := by
    rw [not_digit_of_conversion h]
    exact Bool.false_ne_true
  rw [reswitch, if_neg (hflag _ rfl), if_neg (hflag _ rfl), if_neg hdigit, if_neg (hflag _ rfl),
    if_neg (hflag _ rfl), if_neg (hflag _ rfl), if_neg (hflag _ rfl)]

/-- A format that ends in an escape sequence without flags. -/
theorem prints_vprintfmt_last {text : List UInt8} {depth : Nat}
    (hfmt : c.fmt = text ++ [byte '%', ch, 0]) (hpercent : byte '%' ∉ text) (hzero : 0 ∉ text)
    (hknown : conversion ch ≠ .unrecognized) (herror : conversion ch ≠ .error) :
    ∃ w, Prints (fun _ _ putch => vprintfmt putch (depth + 1) c) w true := by
  obtain ⟨w, ap, hescape⟩ := prints_escape (c := c) (s := ⟨ch, {}, [0], 0⟩) depth
    (fun h => absurd h herror) hknown
  have hlast := prints_loop_escape (reswitch_conversion hknown) hescape (prints_loop_stop 1 [])
  have hwhole := prints_loop_text hpercent hzero hlast
  have hfuel : c.fmt.length = 3 + text.length := by
    rw [hfmt, List.length_append, Nat.add_comm]
    rfl
  refine ⟨text ++ (w ++ []), fun σ ε putch => ?_⟩
  have h := hwhole σ ε putch
  dsimp only at h
  dsimp only [vprintfmt]
  rw [hfuel, hfmt]
  exact h

/-- Both formats of the case `'e'` are printed without a further call of that case. -/
theorem prints_error (err : BitVec 32) :
    ∃ w, Prints (fun _ _ putch => printError (vprintfmt putch 1) err) w true := by
  unfold printError
  dsimp only
  cases (if maxError ≤ (if err.toInt < 0 then -err else err).toInt then none
    else errorText (if err.toInt < 0 then -err else err)) with
  | none =>
      have hfmt : ascii "error %d" ++ [0] = ascii "error " ++ [byte '%', byte 'd', 0] := by decide
      exact prints_vprintfmt_last hfmt (by decide) (by decide) (by intro h; cases h)
        (by intro h; cases h)
  | some p =>
      have hfmt : ascii "%s" ++ [0] = [] ++ [byte '%', byte 's', 0] := by decide
      exact prints_vprintfmt_last hfmt List.not_mem_nil List.not_mem_nil (by intro h; cases h)
        (by intro h; cases h)

/-- What `vprintfmt` prints. -/
def output (c : Call) : List UInt8 := printed fun _ _ putch => vprintfmt putch 2 c

/-- `vprintfmt` returns for every format that has a terminator. -/
theorem prints_vprintfmt (hfmt : 0 ∈ c.fmt) :
    Prints (fun _ _ putch => vprintfmt putch 2 c) (output c) true := by
  obtain ⟨n, hn⟩ := List.mem_iff_getElem?.1 hfmt
  obtain ⟨w, hw⟩ : ∃ w, Prints (fun _ _ putch => vprintfmt putch 2 c) w true :=
    prints_loop (i := 0) 0 prints_error hn (Nat.zero_le n)
      (by rw [Nat.zero_add]; exact (List.getElem?_eq_some_iff.1 hn).1)
  have houtput : output c = w := hw.printed
  rwa [houtput]

end Returns

end Labs.Jos.Printfmt
