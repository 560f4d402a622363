import Mathlib.Data.List.TakeWhile
import NyanOS.Terminal.Ansi

/-!
# Parameters of escape sequences

What `append_move_cursor` of the editor writes is read back by `parse_ansi_params`.
-/
namespace NyanOS.Terminal

open List

/-- `append_int`: the remainders of the loop, from the end of `rev`. -/
def appendInt (buf : List UInt8) (val : Nat) : List UInt8 :=
  if val = 0 then buf ++ ['0'.toUInt8]
  else buf ++ ((Nat.digits 10 val).map fun d => '0'.toUInt8 + UInt8.ofNat d).reverse

/-- `append_move_cursor` -/
def appendMoveCursor (buf : List UInt8) (r c : Nat) : List UInt8 :=
  appendInt (appendInt (buf ++ [escape, '['.toUInt8]) r ++ [';'.toUInt8]) c ++ ['H'.toUInt8]

/-- The decimal form of a number. -/
def decimal (n : Nat) : List UInt8 := appendInt [] n

/-- `ansi_write_char` on the bytes of a string, with the calls it makes. -/
def ansiWrite (ctx : AnsiContext) : List UInt8 → AnsiContext × List DriverCall
  | [] => (ctx, [])
  | c :: s =>
    let (ctx, calls) := ansiWriteChar ctx c
    let (ctx, rest) := ansiWrite ctx s
    (ctx, calls ++ rest)

variable {n r c : Nat} {buf s : List UInt8} {ctx : AnsiContext}

theorem appendInt_eq : appendInt buf n = buf ++ decimal n := by
  rw [decimal, appendInt, appendInt]
  split <;> rfl

theorem isDigit_digit {d : Nat} (h : d < 10) : isDigit ('0'.toUInt8 + UInt8.ofNat d) = true ∧
    (('0'.toUInt8 + UInt8.ofNat d).toNat - '0'.toUInt8.toNat : Int) = d := by
  interval_cases d <;> decide

theorem isDigit_decimal : ∀ b ∈ decimal n, isDigit b = true := by
  intro b hb
  rw [decimal, appendInt, nil_append, nil_append] at hb
  split at hb
  · obtain rfl := mem_singleton.mp hb
    decide
  · obtain ⟨d, hd, rfl⟩ := mem_map.mp (mem_reverse.mp hb)
    exact (isDigit_digit (Nat.digits_lt_base (by decide) hd)).1

theorem foldr_digits {ds : List Nat} (hds : ∀ d ∈ ds, d < 10) (h : Nat.ofDigits 10 ds < 2 ^ 31) :
    ds.foldr (fun d res => wrapInt (res * 10 + (('0'.toUInt8 + UInt8.ofNat d).toNat - '0'.toUInt8.toNat : Int))) 0 =
      (Nat.ofDigits 10 ds : Nat) := by
  induction ds with
  | nil => rfl
  | cons d ds ih =>
    obtain ⟨hd, hrest⟩ := forall_mem_cons.mp hds
    rw [Nat.ofDigits_cons] at h ⊢
    rw [foldr_cons, ih hrest (by omega), (isDigit_digit hd).2, wrapInt, Int.bmod_eq_of_le (by omega) (by omega)]
    push_cast
    ring

theorem ansiAtoi_decimal (h : n < 2 ^ 31) : ansiAtoi (decimal n) = n := by
  have hdigits : ∀ {s : List UInt8}, (∀ b ∈ s, isDigit b = true) → (s.dropWhile (!isDigit ·)).takeWhile isDigit = s := by
    intro s hs
    cases s with
    | nil => rfl
    | cons b s => rw [dropWhile_cons_of_neg (by simp [hs b mem_cons_self]), takeWhile_eq_self_iff.mpr hs]
  rw [ansiAtoi, hdigits isDigit_decimal, decimal, appendInt]
  split
  · next hzero =>
    rw [hzero]
    decide
  rw [nil_append, foldl_reverse, foldr_map]
  have hvalue := foldr_digits (fun d hd => Nat.digits_lt_base (by decide) hd) ((Nat.ofDigits_digits 10 n).trans_lt h)
  rwa [Nat.ofDigits_digits] at hvalue

/-- The parser returns what was joined. -/
theorem parseAnsiParams_decimal (ns : List Nat) (hne : ns ≠ []) (hlen : ns.length ≤ 4) (hns : ∀ n ∈ ns, n < 2 ^ 31) :
    parseAnsiParams ([';'.toUInt8].intercalate (ns.map decimal)) = ns.map Nat.cast := by
  have hplain : ∀ s ∈ ns.map decimal, ';'.toUInt8 ∉ s := by
    intro s hs hmem
    obtain ⟨n, -, rfl⟩ := mem_map.mp hs
    exact absurd (isDigit_decimal _ hmem) (by decide)
  rw [parseAnsiParams, splitOn_intercalate _ hplain (by simpa using hne), take_of_length_le (by simpa using hlen), map_map]
  exact map_congr_left fun n hn => ansiAtoi_decimal (hns n hn)

theorem ansiWrite_append (s t : List UInt8) : ansiWrite ctx (s ++ t) =
    ((ansiWrite (ansiWrite ctx s).1 t).1, (ansiWrite ctx s).2 ++ (ansiWrite (ansiWrite ctx s).1 t).2) := by
  induction s generalizing ctx with
  | nil => rfl
  | cons c s ih => simp [ansiWrite, ih]

/-- Parameters are collected as long as there is room. -/
theorem ansiWrite_params (ctx : AnsiContext) (hctx : ctx.state = .csi) (hs : ∀ b ∈ s, isDigit b ∨ b = ';'.toUInt8)
    (hroom : ctx.buf.length + s.length ≤ 31) : ansiWrite ctx s = ({ ctx with buf := ctx.buf ++ s }, []) := by
  induction s generalizing ctx with
  | nil => simp [ansiWrite]
  | cons b s ih =>
    obtain ⟨hb, hrest⟩ := forall_mem_cons.mp hs
    rw [length_cons] at hroom
    have hone : ansiWriteChar ctx b = ({ ctx with buf := ctx.buf ++ [b] }, []) := by
      rw [ansiWriteChar, hctx]
      dsimp only
      rw [if_pos (hb.imp_right .inl), if_pos (by rw [ansiBufSize]; omega)]
    have hmore : ansiWrite { ctx with buf := ctx.buf ++ [b] } s = _ := ih _ hctx hrest (by rw [length_append]; simp; omega)
    rw [ansiWrite, hone]
    dsimp only
    rw [hmore]
    simp

theorem length_decimal (hpos : 0 < n) (h : n < 10 ^ 9) : (decimal n).length ≤ 9 := by
  rw [decimal, appendInt, if_neg hpos.ne', nil_append, length_reverse, length_map]
  exact Nat.digits_length_le_iff (by decide) n |>.mpr h

/-- Numbers survive the way through a buffer of parameters, and a cursor command of the editor moves the cursor once. -/
theorem escape_params_survive (ctx : AnsiContext) (ns : List Nat) (r c : Nat) (hne : ns ≠ []) (hlen : ns.length ≤ 4) (hns : ∀ n ∈ ns, n < 2 ^ 31)
    (hctx : ctx.state = .normal) (hr : 1 ≤ r ∧ r < 10 ^ 9) (hc : 1 ≤ c ∧ c < 10 ^ 9) :
    parseAnsiParams ([';'.toUInt8].intercalate (ns.map decimal)) = ns.map Nat.cast ∧
      (ansiWrite ctx (appendMoveCursor [] r c)).2 = [.setCursor (c - 1) (r - 1)] ∧
      (ansiWrite ctx (appendMoveCursor [] r c)).1.state = .normal := by
  refine ⟨parseAnsiParams_decimal ns hne hlen hns, ?_⟩
  have hpair : parseAnsiParams (decimal r ++ ';'.toUInt8 :: decimal c) = [(r : Int), (c : Int)] := by
    have hboth := parseAnsiParams_decimal [r, c] (by simp) (by simp) (by simp; omega)
    simpa [intercalate] using hboth
  have hparams : ∀ b ∈ decimal r ++ ';'.toUInt8 :: decimal c, isDigit b ∨ b = ';'.toUInt8 := by
    intro b hb
    rcases mem_append.mp hb with hb | hb
    · exact .inl (isDigit_decimal b hb)
    · exact (mem_cons.mp hb).symm.imp_left (isDigit_decimal b)
  have hroom := Nat.add_le_add (length_decimal hr.1 hr.2) (length_decimal hc.1 hc.2)
  have hstart : ansiWrite ctx [escape, '['.toUInt8] = ({ ctx with state := .csi, buf := [] }, []) := by
    simp [ansiWrite, ansiWriteChar, hctx]
  have hbytes : appendMoveCursor [] r c =
      [escape, '['.toUInt8] ++ ((decimal r ++ ';'.toUInt8 :: decimal c) ++ ['H'.toUInt8]) := by
    rw [appendMoveCursor, appendInt_eq, appendInt_eq]
    simp
  have hmiddle := ansiWrite_params { ctx with state := .csi, buf := [] } rfl hparams (by simp; omega)
  have hcoordinate : ∀ n : Nat, 1 ≤ n → coordinate n = n := fun n hn => if_pos (by omega)
  rw [hbytes, ansiWrite_append, hstart, ansiWrite_append, hmiddle, ← hcoordinate r hr.1, ← hcoordinate c hc.1]
  refine ⟨?_, rfl⟩
  show csiCommand 'H'.toUInt8 (parseAnsiParams (decimal r ++ ';'.toUInt8 :: decimal c)) ++ [] = _
  rw [hpair]
  rfl

theorem escape_params_survive_small :
    parseAnsiParams ([';'.toUInt8].intercalate ([7, 0, 45].map decimal)) = [7, 0, 45] ∧
      (ansiWrite ⟨white, .normal, []⟩ (appendMoveCursor [] 24 80)).2 = [.setCursor 79 23] := by
  have hsurvive := escape_params_survive ⟨white, .normal, []⟩ [7, 0, 45] 24 80 (by decide) (by decide) (by decide) rfl
    (by decide) (by decide)
  exact ⟨hsurvive.1, hsurvive.2.1⟩

end NyanOS.Terminal
