import RaftGroup.Proofs.Decimal
import RaftGroup.Resp.Parse

namespace RaftGroup.Resp

-- Values that are read back from their bytes: no line ends early, and arrays nest `levels` deep at most. No value that
-- fits an address space has 2^63 bytes or items.
inductive Sendable : (levels : Nat) → Resp → Prop
  | simple (line : ¬ crlf <:+: text) : Sendable levels (.simple text)
  | error (line : ¬ crlf <:+: text) : Sendable levels (.error text)
  | integer : Sendable levels (.integer n)
  | bulk (size : data.length < 2 ^ 63) : Sendable levels (.bulk data)
  | array (size : items.length < 2 ^ 63) (each : ∀ v ∈ items, Sendable levels v) : Sendable (levels + 1) (.array items)
  | nil : Sendable levels .nil

theorem eq_append_of_isPrefix {b l m : Bytes} (h : b <+: l ++ m) (hl : l.length ≤ b.length) :
    ∃ c, b = l ++ c ∧ c <+: m := by
  have ⟨c, hc⟩ := List.prefix_of_prefix_length_le (List.prefix_append l m) h hl
  exact ⟨c, hc.symm, (List.prefix_append_right_inj l).mp (hc ▸ h)⟩

theorem lineEnd?_cons (h : ¬ crlf <+: b :: bs) (n : Nat) : lineEnd? n (b :: bs) = lineEnd? (n + 1) bs := by
  rw [lineEnd?]
  rintro more rfl rfl
  exact h ⟨more, rfl⟩

theorem crlf_isPrefix_of_append {c : UInt8} {text more : Bytes} (h : crlf <+: c :: (text ++ (crlf ++ more))) :
    crlf <+: c :: text := by
  have ⟨hc, hd⟩ := List.cons_prefix_cons.mp h
  cases text
  case nil         => exact absurd (List.cons_prefix_cons.mp hd).left (by decide)
  case cons d text =>
    rw [← hc, ← (List.cons_prefix_cons.mp hd).left]
    exact List.prefix_append crlf text

theorem lineEnd?_of_isPrefix {b text more : Bytes} (ht : ¬ crlf <:+: text) (hb : b <+: text ++ (crlf ++ more))
    (n : Nat) : lineEnd? n b = if text.length + 2 ≤ b.length then some (n + text.length) else none := by
  induction text generalizing b n
  case nil =>
    match b with
    | []          => rfl
    | [_]         => rw [lineEnd?_cons (fun h => absurd h.length_le (by simp [crlf]))]; rfl
    | x :: y :: b =>
      have ⟨hx, hb⟩ := List.cons_prefix_cons.mp hb
      have ⟨hy, _⟩ := List.cons_prefix_cons.mp hb
      simp [hx, hy, lineEnd?]
  case cons c text ih =>
    cases b
    case nil => rfl
    case cons d b =>
      have ⟨hd, hb'⟩ := List.cons_prefix_cons.mp hb
      have hc : ¬ crlf <+: d :: b := fun h => ht (crlf_isPrefix_of_append (h.trans hb)).isInfix
      have ht : ¬ crlf <:+: text := fun h => ht (h.trans (List.suffix_cons c text).isInfix)
      rw [lineEnd?_cons hc, ih ht hb', List.length_cons, List.length_cons, Nat.add_assoc n 1, Nat.add_comm 1,
        Nat.add_right_comm text.length 1 2]
      simp only [Nat.add_le_add_iff_right]

theorem line?_of_isPrefix {b text more : Bytes} (ht : ¬ crlf <:+: text) (hb : b <+: text ++ (crlf ++ more)) :
    line? b = if text.length + 2 ≤ b.length then some text else none := by
  rw [line?, lineEnd?_of_isPrefix ht hb]
  split
  case isFalse  => rfl
  case isTrue h =>
    have ⟨c, hc, _⟩ := eq_append_of_isPrefix hb (Nat.le_of_add_right_le h)
    simp [hc]

theorem line_append (s : Symbol) (text more : Bytes) : line s text ++ more = s.byte :: (text ++ (crlf ++ more)) := by
  rw [line, List.cons_append, List.append_assoc]

theorem line?_append (more : Bytes) (h : ¬ crlf <:+: text) : line? (text ++ (crlf ++ more)) = some text := by
  rw [line?_of_isPrefix h (List.prefix_refl _), if_pos (by simp [crlf])]

theorem not_crlf_isInfix (h : 0x0D ∉ text) : ¬ crlf <:+: text :=
  fun hc => h (hc.subset (by decide))

theorem not_crlf_isInfix_ofNat (n : Nat) : ¬ crlf <:+: Decimal.ofNat n :=
  not_crlf_isInfix fun h => absurd (Decimal.isDigit_of_mem h) (by unfold Decimal.IsDigit; decide)

theorem not_crlf_isInfix_ofInt (i : Int) : ¬ crlf <:+: Decimal.ofInt i := by
  cases i
  case ofNat n => exact not_crlf_isInfix_ofNat n
  case negSucc n =>
    refine not_crlf_isInfix fun h => ?_
    cases h
    case tail h => exact absurd (Decimal.isDigit_of_mem h) (by unfold Decimal.IsDigit; decide)

theorem parse_of_short (ht : ¬ crlf <:+: text) (hn : s.Numeric → text.length ≤ maxIntegerLength)
    (hb : b <+: line s text ++ more) (hl : b.length < text.length + 3) :
    parse limit levels b = .ok (.incomplete (b.length + 1)) := by
  rw [line_append] at hb
  cases b
  case nil => rw [parse]; rfl
  case cons c b =>
    have ⟨hc, hb⟩ := List.cons_prefix_cons.mp hb
    rw [List.length_cons] at hl
    have hs : ¬ (s.Numeric ∧ maxIntegerLength + 2 ≤ b.length) := by
      rintro ⟨h, hm⟩
      have := hn h
      omega
    rw [parse, hc, Symbol.ofByte?_byte]
    simp only [line?_of_isPrefix ht hb, if_neg (show ¬ text.length + 2 ≤ b.length by omega), hs, if_false]
    rfl

section

variable {limit levels : Nat} {text rest : Bytes} {n : Nat}

theorem parse_simple (ht : ¬ crlf <:+: text) :
    parse limit levels (line .simple text ++ rest) = .ok (.done (.simple text) (text.length + 3)) := by
  rw [line_append, parse, Symbol.ofByte?_byte]
  simp only [line?_append rest ht]

theorem parse_error (ht : ¬ crlf <:+: text) :
    parse limit levels (line .error text ++ rest) = .ok (.done (.error text) (text.length + 3)) := by
  rw [line_append, parse, Symbol.ofByte?_byte]
  simp only [line?_append rest ht]

theorem parse_integer (i : Int64) :
    parse limit levels (line .integer (Decimal.ofInt i.toInt) ++ rest) =
      .ok (.done (.integer i) ((Decimal.ofInt i.toInt).length + 3)) := by
  rw [line_append, parse, Symbol.ofByte?_byte]
  simp only [line?_append rest (not_crlf_isInfix_ofInt _), integer?, Decimal.int64?_ofInt]
  rfl

theorem parse_nil : parse limit levels (line .bulk (Decimal.ofInt (-1)) ++ rest) = .ok (.done .nil 5) := by
  rw [line_append, parse, Symbol.ofByte?_byte]
  simp only [line?_append rest (not_crlf_isInfix_ofInt _), integer?]
  rfl

theorem length?_ofNat (h : n < 2 ^ 63) :
    length? limit (.ofNat n) = if limit < n then .error (.frameTooLarge limit) else .ok (some n) := by
  have hn : Int64.ofNat n ≠ -1 := fun he => absurd (he ▸ not_neg_ofNat h) (by decide)
  rw [length?, if_neg hn, if_neg (not_neg_ofNat h), Int64.toInt_ofNat_of_lt h, Int.toNat_natCast]

theorem integer?_ofNat (h : n < 2 ^ 63) : integer? (Decimal.ofNat n) = .ok (.ofNat n) := by
  rw [integer?, Decimal.int64?_ofNat h]

theorem drop_line (text rest : Bytes) : (text ++ (crlf ++ rest)).drop (text.length + 2) = rest := by
  rw [← List.append_assoc]
  exact List.drop_left' (by simp [crlf])

theorem parse_bulk (h : n < 2 ^ 63) :
    parse limit levels (line .bulk (Decimal.ofNat n) ++ rest) =
      if limit < n then .error (.frameTooLarge limit)
      else Step.after ((Decimal.ofNat n).length + 3) <$> parseBulk n rest := by
  rw [line_append, parse, Symbol.ofByte?_byte]
  simp only [line?_append rest (not_crlf_isInfix_ofNat _), integer?_ofNat h, length?_ofNat h, drop_line, bind,
    Except.bind]
  by_cases hl : limit < n
  case pos => simp only [hl, if_true]
  case neg => simp only [hl, if_false]; cases parseBulk n rest <;> rfl

theorem parse_array (h : n < 2 ^ 63) :
    parse limit (levels + 1) (line .array (Decimal.ofNat n) ++ rest) =
      if limit < n then .error (.frameTooLarge limit)
      else (fun s => (s.map .array).after ((Decimal.ofNat n).length + 3)) <$>
        parseItems (parse limit levels) n rest := by
  rw [line_append, parse, Symbol.ofByte?_byte]
  simp only [line?_append rest (not_crlf_isInfix_ofNat _), integer?_ofNat h, length?_ofNat h, drop_line, bind,
    Except.bind]
  by_cases hl : limit < n
  case pos => simp only [hl, if_true]
  case neg => simp only [hl, if_false]; cases parseItems (parse limit levels) n rest <;> rfl

end

-- What can come of the bytes that have arrived of a value, when all its bytes are as many as `size`.
inductive Reads (limit : Nat) (v : α) (size : Nat) (b : Bytes) : Except Error (Step α) → Prop
  | done (whole : size ≤ b.length) : Reads limit v size b (.ok (.done v size))
  | incomplete (short : b.length < need) (le : need ≤ size) : Reads limit v size b (.ok (.incomplete need))
  | tooLarge (large : limit < size) : Reads limit v size b (.error (.frameTooLarge limit))

theorem Step.map_id (s : Step α) : s.map id = s := by
  cases s <;> rfl

@[simp]
theorem length_line (s : Symbol) (text : Bytes) : (line s text).length = text.length + 3 := by
  simp [line, crlf]

namespace Reads

theorem after {v : α} (h : Reads limit v size rest out) (f : α → β) (l : Bytes) :
    Reads limit (f v) (l.length + size) (l ++ rest) ((fun s => (s.map f).after l.length) <$> out) := by
  cases h
  case done whole          => exact .done (by simpa using whole)
  case incomplete short le => exact .incomplete (by simpa using short) (by simpa using le)
  case tooLarge large      => exact .tooLarge (by omega)

theorem of_line {v : Resp} (ht : ¬ crlf <:+: text) (hn : s.Numeric → text.length ≤ maxIntegerLength)
    (hb : b <+: line s text ++ more) (hs : (line s text).length ≤ size)
    (h : ∀ rest, rest <+: more → Reads limit v size (line s text ++ rest) (parse limit levels (line s text ++ rest))) :
    Reads limit v size b (parse limit levels b) := by
  rw [length_line] at hs
  by_cases hw : b.length < text.length + 3
  case pos =>
    rw [parse_of_short ht hn hb hw]
    exact .incomplete (Nat.lt_succ_self _) (by omega)
  case neg =>
    have ⟨rest, hb, hr⟩ := eq_append_of_isPrefix hb (by rw [length_line]; omega)
    exact hb ▸ h rest hr

theorem of_whole_line {v : Resp} (ht : ¬ crlf <:+: text) (hn : s.Numeric → text.length ≤ maxIntegerLength)
    (hb : b <+: line s text ++ more)
    (h : ∀ rest, parse limit levels (line s text ++ rest) = .ok (.done v (text.length + 3))) :
    Reads limit v (line s text).length b (parse limit levels b) := by
  refine of_line ht hn hb (Nat.le_refl _) fun rest _ => ?_
  rw [h, length_line]
  exact .done (by simp)

end Reads

theorem parseItems_reads {item : Bytes → Except Error (Step Resp)}
    (h : ∀ v ∈ vs, ∀ b more, b <+: v.encode ++ more → Reads limit v v.encode.length b (item b))
    (hb : b <+: encodeAll vs ++ more) : Reads limit vs (encodeAll vs).length b (parseItems item vs.length b) := by
  induction vs generalizing b
  case nil => exact .done (Nat.zero_le _)
  case cons v vs ih =>
    rw [encodeAll, List.append_assoc] at hb
    have hv := h v List.mem_cons_self b _ hb
    rw [List.length_cons, parseItems, encodeAll, List.length_append]
    generalize item b = out at hv
    cases hv
    case done whole =>
      have ⟨rest, hr, hm⟩ := eq_append_of_isPrefix hb whole
      have hi := ih (fun w hw => h w (List.mem_cons_of_mem _ hw)) hm
      simp only [hr, bind, Except.bind, List.drop_left]
      exact hi.after (v :: ·) v.encode
    case incomplete short le => exact .incomplete short (Nat.le_add_right_of_le le)
    case tooLarge large      => exact .tooLarge (Nat.lt_add_right _ large)

theorem encode_length_pos (v : Resp) : 0 < v.encode.length := by
  cases v <;> simp only [encode, List.length_append, length_line] <;> omega

theorem length_le_encodeAll (vs : List Resp) : vs.length ≤ (encodeAll vs).length := by
  induction vs
  case nil => exact Nat.zero_le _
  case cons v vs ih =>
    have := encode_length_pos v
    rw [encodeAll, List.length_append, List.length_cons]
    omega

theorem parseBulk_reads (limit : Nat) (hb : b <+: data ++ crlf ++ more) :
    Reads limit (.bulk data) (data.length + 2) b (parseBulk data.length b) := by
  rw [parseBulk]
  by_cases hl : (data ++ crlf).length ≤ b.length
  case pos =>
    have ⟨rest, hr, _⟩ := eq_append_of_isPrefix hb hl
    have hd : b.drop data.length = 0x0D :: 0x0A :: rest := by rw [hr, List.append_assoc, List.drop_left]; rfl
    have ht : b.take data.length = data := by rw [hr, List.append_assoc, List.take_left]
    rw [hd, ht]
    exact .done (by simpa [crlf] using hl)
  case neg =>
    have hs : b.length < data.length + 2 := by simpa [crlf] using hl
    split
    case h_1 hd =>
      have := congrArg List.length hd
      simp only [List.length_drop, List.length_cons] at this
      omega
    case h_2 => exact .incomplete hs (Nat.le_refl _)

theorem length_digits_le (h : n < 2 ^ 63) : (Decimal.ofNat n).length ≤ maxIntegerLength :=
  Nat.le_succ_of_le (Decimal.length_ofNat_le (by decide) (by omega))

-- However little of a value has arrived, and whatever comes after it, it can turn out too large but nothing else.
theorem Sendable.reads {v : Resp} (h : v.Sendable levels) (limit : Nat) (hb : b <+: v.encode ++ more) :
    Reads limit v v.encode.length b (parse limit levels b) := by
  induction h generalizing b more
  case simple ht => exact .of_whole_line ht (fun h => absurd h (by decide)) hb fun _ => parse_simple ht
  case error ht  => exact .of_whole_line ht (fun h => absurd h (by decide)) hb fun _ => parse_error ht
  case integer n =>
    exact .of_whole_line (not_crlf_isInfix_ofInt _) (fun _ => Decimal.length_ofInt_le n) hb fun _ => parse_integer n
  case nil =>
    exact .of_whole_line (not_crlf_isInfix_ofInt _) (fun _ => by decide) hb fun _ => parse_nil
  case bulk data hs =>
    rw [encode, List.append_assoc] at hb
    rw [encode, List.length_append]
    have hd : (Decimal.ofNat _).length ≤ maxIntegerLength := length_digits_le hs
    refine .of_line (not_crlf_isInfix_ofNat _) (fun _ => hd) hb (Nat.le_add_right _ _) fun rest hr => ?_
    rw [parse_bulk hs]
    split
    case isTrue hl => exact .tooLarge (by simp only [List.length_append]; omega)
    case isFalse =>
      rw [← length_line .bulk, List.length_append]
      have h := (parseBulk_reads limit hr).after id (line .bulk (Decimal.ofNat data.length))
      simp only [Step.map_id] at h
      exact h
  case array items levels hs _ ih =>
    rw [encode, List.append_assoc] at hb
    rw [encode, List.length_append]
    have hd : (Decimal.ofNat _).length ≤ maxIntegerLength := length_digits_le hs
    refine .of_line (not_crlf_isInfix_ofNat _) (fun _ => hd) hb (Nat.le_add_right _ _) fun rest hr => ?_
    rw [parse_array hs]
    split
    case isTrue hl  => exact .tooLarge (by have := length_le_encodeAll items; omega)
    case isFalse    =>
      rw [← length_line .array]
      exact (parseItems_reads ih hr).after Resp.array _

end RaftGroup.Resp
