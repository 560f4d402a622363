import NyanOS.Fat.Files

/-!
# Names of eight characters and three

`fat32_parse_name` splits a name at its dot, `readdir_cb` puts the parts together again and `find_cb` compares the eleven bytes.
-/
namespace NyanOS.Fat

open Lib Function List

def dotChar : Byte := 0x2E

def blank : Byte := 0x20

/-- What is before the dot, or all of a name without one. -/
def baseOf (s : List Byte) : List Byte := s.takeWhile (· ≠ dotChar)

/-- What is after it. -/
def extOf (s : List Byte) : List Byte := (s.dropWhile (· ≠ dotChar)).tail

/-- A name without blanks, and with something after its dot. -/
structure Plain (s : List Byte) : Prop where
  nul : 0 ∉ s
  blanks : blank ∉ s
  ext : dotChar ∈ s → extOf s ≠ []

/-- The entry has these eleven bytes. -/
def HasName (e name ext : Bytes) : Prop := (∀ k < 8, e k = name k) ∧ ∀ k < 3, e (8 + k) = ext k

/-- Does `find_cb` accept the entry? -/
def matchesEntry (name ext e : Bytes) : Bool := strncmp e name 8 0 && strncmp (fun k => e (8 + k)) ext 3 0

variable {s t cs l : List Byte} {c : Byte} {name ext name' ext' b e e' : Bytes} {i j k n : Nat}

/-! ### The parser -/

/-- A list of bytes put at an index. -/
def place (b : Bytes) (i : Nat) (l : List Byte) : Bytes := splice b i l.length fun k => l.getD k 0

theorem place_nil : place b i [] = b := by
  funext x
  exact splice_out (by simp only [length_nil]; omega)

theorem place_cons : place (update b i c) (i + 1) l = place b i (c :: l) := by
  funext x
  simp only [place, splice, length_cons]
  by_cases hx : x = i
  · subst hx
    rw [if_neg (by omega), if_pos (by omega), update_self, Nat.sub_self]
    rfl
  by_cases hin : i + 1 ≤ x ∧ x < i + 1 + l.length
  · rw [if_pos hin, if_pos (by omega), show x - i = x - (i + 1) + 1 by omega]
    rfl
  · rw [if_neg hin, if_neg (by omega), update_of_ne hx]

theorem place_get (h : k < l.length) : place b i l (i + k) = l[k] := by
  rw [place, splice_add h, getD_eq_getElem?_getD, getElem?_eq_getElem h, Option.getD_some]

theorem place_out (h : k < i ∨ i + l.length ≤ k) : place b i l k = b k := splice_out h

theorem baseOf_cons_of_ne (h : c ≠ dotChar) : baseOf (c :: cs) = c :: baseOf cs := by
  simp [baseOf, h]

theorem extOf_cons_of_ne (h : c ≠ dotChar) : extOf (c :: cs) = extOf cs := by
  simp [extOf, h]

theorem baseOf_dot : baseOf (dotChar :: cs) = [] := by simp [baseOf]

theorem extOf_dot : extOf (dotChar :: cs) = cs := by simp [extOf]

theorem parseFrom_ext (hj : j ≤ 3) : parseFrom cs i j true name ext =
    if dotChar ∉ cs ∧ j + cs.length ≤ 3 then some (name, place ext j (cs.map upperCase)) else none := by
  induction cs generalizing i j ext with
  | nil => simp [parseFrom, place_nil, hj]
  | cons c cs ih =>
    by_cases hc : c = dotChar
    · subst hc
      rw [if_neg (by simp)]
      rfl
    have hdot : ¬ c = 0x2E := hc
    simp only [parseFrom, if_neg hdot, Bool.true_eq_false, false_and, if_false, if_true]
    by_cases h3 : 3 ≤ j
    · rw [if_pos h3, if_neg (by simp only [length_cons]; omega)]
    have hiff : (dotChar ∉ cs ∧ j + 1 + cs.length ≤ 3) ↔ dotChar ∉ c :: cs ∧ j + (c :: cs).length ≤ 3 := by
      rw [mem_cons, not_or, length_cons, add_right_comm, ← add_assoc]
      exact ⟨fun h => ⟨⟨Ne.symm hc, h.1⟩, h.2⟩, fun h => ⟨h.1.2, h.2⟩⟩
    rw [if_neg h3, ih (by omega), place_cons]
    simp only [hiff, map_cons]

theorem parseFrom_base (hi : i ≤ 8) : parseFrom cs i 0 false name ext =
    if i + (baseOf cs).length ≤ 8 ∧ dotChar ∉ extOf cs ∧ (extOf cs).length ≤ 3 then
      some (place name i ((baseOf cs).map upperCase), place ext 0 ((extOf cs).map upperCase)) else none := by
  induction cs generalizing i name with
  | nil => simp [parseFrom, baseOf, extOf, place_nil, hi]
  | cons c cs ih =>
    by_cases hc : c = dotChar
    · have hdot : dotChar = 0x2E := rfl
      subst hc
      rw [baseOf_dot, extOf_dot, map_nil, place_nil, parseFrom, if_pos hdot, if_neg Bool.false_ne_true,
        parseFrom_ext (Nat.zero_le 3)]
      simp only [length_nil, Nat.add_zero, Nat.zero_add, hi, true_and]
    · have hdot : ¬ c = 0x2E := hc
      rw [baseOf_cons_of_ne hc, extOf_cons_of_ne hc]
      simp only [parseFrom, if_neg hdot, true_and, Bool.false_eq_true, if_false]
      by_cases h8 : 8 ≤ i
      · rw [if_pos h8, if_neg (by simp only [length_cons]; omega)]
      · rw [if_neg h8, ih (by omega), place_cons]
        simp only [length_cons, map_cons, add_right_comm, ← add_assoc]

theorem length_le_parts : s.length ≤ (baseOf s).length + 1 + (extOf s).length := by
  induction s with
  | nil => simp
  | cons c cs ih =>
    by_cases hc : c = dotChar
    · subst hc
      rw [baseOf_dot, extOf_dot]
      simp only [length_cons, length_nil]
      omega
    · rw [baseOf_cons_of_ne hc, extOf_cons_of_ne hc]
      simp only [length_cons]
      omega

theorem fat32ParseName_eq : fat32ParseName s = if (baseOf s).length ≤ 8 ∧ dotChar ∉ extOf s ∧ (extOf s).length ≤ 3 then
      some (place blanks 0 ((baseOf s).map upperCase), place blanks 0 ((extOf s).map upperCase)) else none := by
  have hlen : s.length ≤ (baseOf s).length + 1 + (extOf s).length := length_le_parts
  rw [fat32ParseName]
  by_cases h12 : 12 < s.length
  · rw [if_pos h12, if_neg (by omega)]
  · rw [if_neg h12, parseFrom_base (Nat.zero_le 8), Nat.zero_add]
    rfl

theorem count_dots : s.count dotChar ≤ 1 ↔ dotChar ∉ extOf s := by
  induction s with
  | nil => simp [extOf]
  | cons c cs ih =>
    by_cases hc : c = dotChar
    · subst hc
      rw [extOf_dot, count_cons_self, ← count_eq_zero]
      omega
    · rw [extOf_cons_of_ne hc, count_cons_of_ne hc, ih]

theorem fat32ParseName_isSome : (fat32ParseName s).isSome ↔
    s.count dotChar ≤ 1 ∧ (baseOf s).length ≤ 8 ∧ (extOf s).length ≤ 3 := by
  rw [fat32ParseName_eq, count_dots]
  split
  · next h => exact ⟨fun _ => ⟨h.2.1, h.1, h.2.2⟩, fun _ => rfl⟩
  · next h => exact ⟨fun hn => absurd hn Bool.false_ne_true, fun h' => absurd ⟨h'.2.1, h'.1, h'.2.2⟩ h⟩

theorem parts_of_parse (h : fat32ParseName s = some (name, ext)) : (baseOf s).length ≤ 8 ∧ (extOf s).length ≤ 3 ∧
      name = place blanks 0 ((baseOf s).map upperCase) ∧ ext = place blanks 0 ((extOf s).map upperCase) := by
  rw [fat32ParseName_eq] at h
  split at h
  · next hs =>
    obtain ⟨rfl, rfl⟩ := Prod.mk.inj (Option.some.inj h)
    exact ⟨hs.1, hs.2.2, rfl, rfl⟩
  · cases h

/-! ### The formatter -/

theorem upperCase_dot : upperCase dotChar = dotChar := by decide

theorem upperCase_ne_blank (h : c ≠ blank) : upperCase c ≠ blank := by
  have hall : ∀ c : Byte, c ≠ blank → upperCase c ≠ blank := by decide +kernel
  exact hall c h

theorem upperCase_ne_zero (h : c ≠ 0) : upperCase c ≠ 0 := by
  have hall : ∀ c : Byte, c ≠ 0 → upperCase c ≠ 0 := by decide +kernel
  exact hall c h

theorem blank_not_mem_map (h : blank ∉ l) : blank ∉ l.map upperCase := by
  intro hm
  obtain ⟨c, hc, he⟩ := mem_map.mp hm
  exact upperCase_ne_blank (fun hb => h (hb ▸ hc)) he

theorem upperCase_eq_dot : upperCase c = dotChar ↔ c = dotChar := by
  have hall : ∀ c : Byte, upperCase c = dotChar ↔ c = dotChar := by decide +kernel
  exact hall c

theorem map_baseOf : (baseOf s).map upperCase = baseOf (s.map upperCase) := by
  rw [baseOf, baseOf, takeWhile_map]
  congr 2
  funext c
  simp [upperCase_eq_dot]

theorem map_extOf : (extOf s).map upperCase = extOf (s.map upperCase) := by
  rw [extOf, extOf, dropWhile_map, map_tail]
  congr 3
  funext c
  simp [upperCase_eq_dot]

theorem parts_eq (s : List Byte) : s = baseOf s ++ if dotChar ∈ s then dotChar :: extOf s else [] := by
  induction s with
  | nil => simp [baseOf]
  | cons c cs ih =>
    by_cases hc : c = dotChar
    · subst hc
      rw [baseOf_dot, extOf_dot, if_pos mem_cons_self, nil_append]
    rw [baseOf_cons_of_ne hc, extOf_cons_of_ne hc, cons_append]
    have hmem : dotChar ∈ c :: cs ↔ dotChar ∈ cs := by
      rw [mem_cons]
      exact or_iff_right (Ne.symm hc)
    simp only [hmem]
    rw [← ih]

theorem extOf_eq_nil (h : dotChar ∉ s) : extOf s = [] := by
  induction s with
  | nil => rfl
  | cons c cs ih =>
    have hc : c ≠ dotChar := fun hc => h (hc ▸ mem_cons_self)
    rw [extOf_cons_of_ne hc]
    exact ih fun hm => h (mem_cons_of_mem c hm)

theorem mem_baseOf (h : c ∈ baseOf s) : c ∈ s := (takeWhile_sublist _).mem h

theorem mem_extOf (h : c ∈ extOf s) : c ∈ s := (dropWhile_sublist _).mem (mem_of_mem_tail h)

theorem range_place (h : l.length ≤ n) :
    (List.range n).map (place blanks 0 l) = l ++ List.replicate (n - l.length) blank := by
  apply ext_getElem
  · simp only [length_map, length_range, length_append, length_replicate]
    omega
  · intro k hk _
    rw [getElem_map, getElem_range, getElem_append]
    split
    · next hlt =>
      have hget := place_get (b := blanks) (i := 0) hlt
      rwa [zero_add] at hget
    next hge =>
    rw [place_out (by omega), getElem_replicate]
    rfl

theorem takeWhile_place (h : l.length ≤ n) (hb : blank ∉ l) :
    ((List.range n).map (place blanks 0 l)).takeWhile (· ≠ 0x20) = l := by
  rw [range_place h, takeWhile_append_of_pos]
  · rw [takeWhile_replicate]
    simp [blank]
  · intro c hc
    have hne : c ≠ blank := fun he => hb (he ▸ hc)
    simpa [blank] using hne

theorem entryName_of_hasName (hp : Plain s) (h : fat32ParseName s = some (name, ext)) (he : HasName e name ext) :
    entryName e = s.map upperCase := by
  obtain ⟨h8, h3, rfl, rfl⟩ := parts_of_parse h
  have hbase : blank ∉ (baseOf s).map upperCase := blank_not_mem_map fun hm => hp.blanks (mem_baseOf hm)
  have hext : blank ∉ (extOf s).map upperCase := blank_not_mem_map fun hm => hp.blanks (mem_extOf hm)
  have hpart0 : (List.range 8).map (fun k => e (0 + k)) = (List.range 8).map (place blanks 0 ((baseOf s).map upperCase)) :=
    map_congr_left fun k hk => by rw [zero_add, he.1 k (mem_range.mp hk)]
  have hpart8 : (List.range 3).map (fun k => e (8 + k)) = (List.range 3).map (place blanks 0 ((extOf s).map upperCase)) :=
    map_congr_left fun k hk => he.2 k (mem_range.mp hk)
  have he8 : e 8 = place blanks 0 ((extOf s).map upperCase) 0 := he.2 0 (by omega)
  simp only [entryName]
  rw [hpart0, hpart8, takeWhile_place (by simpa using h8) hbase, takeWhile_place (by simpa using h3) hext, he8]
  -- The dot is written exactly when the extension has a first character.
  by_cases hdot : dotChar ∈ s
  · obtain ⟨c, cs, hcs⟩ := exists_cons_of_ne_nil (hp.ext hdot)
    have hfirst : place blanks 0 ((extOf s).map upperCase) 0 = upperCase c := by
      rw [hcs]
      rfl
    have hne : upperCase c ≠ 0x20 := fun h20 => hext (by rw [hcs, map_cons, h20]; exact mem_cons_self)
    have hs := congrArg (List.map upperCase) (parts_eq s)
    rw [if_pos hdot, map_append, map_cons, upperCase_dot] at hs
    rw [hfirst, if_pos hne, hs]
    rfl
  · have hs := congrArg (List.map upperCase) (parts_eq s)
    rw [if_neg hdot, append_nil] at hs
    rw [extOf_eq_nil hdot, map_nil, place_nil, if_neg (by simp [blanks]), append_nil, hs]

theorem entryName_congr (h : ∀ k < 11, e k = e' k) : entryName e = entryName e' := by
  have hpart : ∀ start n, start + n ≤ 11 →
      ((List.range n).map fun k => e (start + k)) = (List.range n).map fun k => e' (start + k) := by
    intro start n hle
    refine map_congr_left fun k hk => h _ ?_
    have := mem_range.mp hk
    omega
  simp only [entryName]
  rw [hpart 0 8 (by omega), hpart 8 3 (by omega), h 8 (by omega)]

theorem HasName.eq (h : HasName e name ext) (h' : HasName e' name ext) : ∀ k < 11, e k = e' k := by
  intro k hk
  by_cases h8 : k < 8
  · rw [h.1 k h8, h'.1 k h8]
  · have hext := (h.2 (k - 8) (by omega)).trans (h'.2 (k - 8) (by omega)).symm
    rwa [show 8 + (k - 8) = k by omega] at hext

/-! ### The comparison -/

theorem strncmp_iff (h : ∀ k < n, e (i + k) ≠ 0) : strncmp e b n i ↔ ∀ k < n, e (i + k) = b (i + k) := by
  induction n generalizing i with
  | zero => simp [strncmp]
  | succ n ih =>
    have h0 : e i ≠ 0 := h 0 (by omega)
    have hnext : ∀ k < n, e (i + 1 + k) ≠ 0 := fun k hk => by
      rw [add_right_comm, add_assoc]
      exact h (k + 1) (by omega)
    rw [strncmp]
    by_cases heq : e i = b i
    · rw [if_pos heq, if_neg h0, ih hnext]
      constructor
      · intro hall k hk
        cases k with
        | zero => exact heq
        | succ k => rw [show i + (k + 1) = i + 1 + k by omega]; exact hall k (by omega)
      · intro hall k hk
        rw [show i + 1 + k = i + (k + 1) by omega]
        exact hall (k + 1) (by omega)
    · rw [if_neg heq]
      exact ⟨fun hf => absurd hf Bool.false_ne_true, fun hall => absurd (hall 0 (by omega)) heq⟩

theorem strncmp_symm : strncmp e b n i = strncmp b e n i := by
  induction n generalizing i with
  | zero => rfl
  | succ n ih =>
    rw [strncmp, strncmp, ih]
    by_cases heq : e i = b i
    · rw [if_pos heq, if_pos heq.symm, heq]
    · rw [if_neg heq, if_neg (Ne.symm heq)]

theorem place_ne_zero (h : 0 ∉ l) : place blanks 0 (l.map upperCase) k ≠ 0 := by
  by_cases hk : k < (l.map upperCase).length
  · have hget := place_get (b := blanks) (i := 0) hk
    rw [zero_add] at hget
    rw [hget, getElem_map]
    exact upperCase_ne_zero fun h0 => h (h0 ▸ getElem_mem _)
  · have hblank : (0x20 : Byte) ≠ 0 := by decide
    rw [place_out (by omega)]
    exact hblank

theorem matchesEntry_iff (hs : 0 ∉ s) (h : fat32ParseName s = some (name, ext)) :
    matchesEntry name ext e ↔ HasName e name ext := by
  obtain ⟨_, _, rfl, rfl⟩ := parts_of_parse h
  have hname : ∀ k < 8, place blanks 0 ((baseOf s).map upperCase) (0 + k) ≠ 0 := fun k _ =>
    place_ne_zero fun h0 => hs (mem_baseOf h0)
  have hext : ∀ k < 3, place blanks 0 ((extOf s).map upperCase) (0 + k) ≠ 0 := fun k _ =>
    place_ne_zero fun h0 => hs (mem_extOf h0)
  rw [matchesEntry, Bool.and_eq_true, strncmp_symm, strncmp_iff hname, strncmp_symm, strncmp_iff hext]
  simp only [zero_add, HasName, eq_comm]

theorem hasName_newEntry : HasName (newEntry name ext c n) name ext := by
  constructor
  · intro k hk
    rw [newEntry, putFirstCluster, put16, put16, splice_out (by omega), splice_out (by omega)]
    exact if_pos hk
  · intro k hk
    have h8 : ¬ 8 + k < 8 := by omega
    have h11 : 8 + k < 11 := by omega
    rw [newEntry, putFirstCluster, put16, put16, splice_out (by omega), splice_out (by omega)]
    simp only [if_neg h8, if_pos h11, Nat.add_sub_cancel_left]

theorem parse_eq_iff (hs : Plain s) (ht : Plain t) (h : fat32ParseName s = some (name, ext))
    (h' : fat32ParseName t = some (name', ext')) :
    (∀ e, matchesEntry name ext e = matchesEntry name' ext' e) ↔ s.map upperCase = t.map upperCase := by
  constructor
  · intro hall
    -- An entry with the bytes of the one is one of the other's, and is listed under one name.
    let e : Bytes := fun k => if k < 8 then name k else ext (k - 8)
    have he : HasName e name ext := by
      constructor
      · intro k hk
        exact if_pos hk
      · intro k _
        have hge : ¬ 8 + k < 8 := by omega
        simp only [e, if_neg hge, Nat.add_sub_cancel_left]
    have he' : HasName e name' ext' := by
      rw [← matchesEntry_iff ht.nul h', ← hall e, matchesEntry_iff hs.nul h]
      exact he
    rw [← entryName_of_hasName hs h he, entryName_of_hasName ht h' he']
  · intro heq
    obtain ⟨_, _, rfl, rfl⟩ := parts_of_parse h
    obtain ⟨_, _, rfl, rfl⟩ := parts_of_parse h'
    rw [map_baseOf, map_extOf, heq, ← map_baseOf, ← map_extOf]
    exact fun _ => rfl

/-- Names of eight characters and three: which are taken, how they are listed, and when two of them are one. -/
theorem names_round_trip : (∀ s : List Byte, 0 ∉ s → ((fat32ParseName s).isSome ↔
      s.count dotChar ≤ 1 ∧ (baseOf s).length ≤ 8 ∧ (extOf s).length ≤ 3)) ∧
    (∀ s name ext e, Plain s → fat32ParseName s = some (name, ext) → HasName e name ext →
      entryName e = s.map upperCase) ∧
    ∀ s name ext t name' ext', Plain s → Plain t →
      fat32ParseName s = some (name, ext) → fat32ParseName t = some (name', ext') →
      ((∀ e, matchesEntry name ext e = matchesEntry name' ext' e) ↔ s.map upperCase = t.map upperCase) := by
  refine ⟨fun s _ => fat32ParseName_isSome, ?_, ?_⟩
  · intro s name ext e hp h he
    exact entryName_of_hasName hp h he
  · intro s name ext t name' ext' hs ht h h'
    exact parse_eq_iff hs ht h h'

/-- The string `readme.txt`. -/
def readmeName : List Byte := [0x72, 0x65, 0x61, 0x64, 0x6D, 0x65, 0x2E, 0x74, 0x78, 0x74]

theorem readmeName_plain : Plain readmeName := ⟨by decide, by decide, by decide⟩

theorem names_round_trip_readme : ∃ name ext, fat32ParseName readmeName = some (name, ext) ∧
    entryName (newEntry name ext 0 0) = readmeName.map upperCase := by
  have hsome : (fat32ParseName readmeName).isSome := (names_round_trip.1 readmeName (by decide)).mpr (by decide)
  obtain ⟨⟨name, ext⟩, h⟩ := Option.isSome_iff_exists.mp hsome
  exact ⟨name, ext, h, names_round_trip.2.1 readmeName name ext _ readmeName_plain h hasName_newEntry⟩

end NyanOS.Fat
