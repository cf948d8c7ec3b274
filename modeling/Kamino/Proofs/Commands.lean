import Kamino.Command
import Kamino.Proofs.Numbers
import Kamino.Proofs.RoundTrip

/-!
# Commands survive forwarding

What `parse` accepts keeps the rules of its verb (`Command.WellFormed`), and `parse` reads back what
`to_frame` prints for a command that keeps them.
-/

namespace Kamino.Resp

open Option List Nat

variable {α : Type} {b : Bytes}

section Numerals

variable {s : String}

theorem asBytes_of_fromUtf8 (h : fromUtf8 b = some s) : asBytes s = b := by
  unfold fromUtf8 String.fromUTF8? at h
  split_ifs at h
  cases h
  rfl

structure Numeral {α : Type} (read : String → Option α) (text : α → String) : Prop where
  read_text : ∀ n, read (text n) = some n
  length_le : ∀ s n, read s = some n → (asBytes (text n)).length ≤ (asBytes s).length

theorem ofDigitChars_lt : ∀ (ds : List Char) (n : ℕ), (∀ c ∈ ds, c.isDigit = true) →
    ofDigitChars 10 ds n < (n + 1) * 10 ^ ds.length
  | [], n, _ => by simp
  | d :: ds, n, h => by
    obtain ⟨-, h48, h57⟩ := digitByte_toNat (h d mem_cons_self)
    have hrest := ofDigitChars_lt ds (10 * n + (d.toNat - '0'.toNat)) fun c hc =>
      h c (mem_cons_of_mem d hc)
    have hnext : 10 * n + (d.toNat - '0'.toNat) + 1 ≤ (n + 1) * 10 := by
      simp only [Char.reduceToNat]
      omega
    rw [ofDigitChars_cons]
    calc ofDigitChars 10 ds (10 * n + (d.toNat - '0'.toNat))
        < (10 * n + (d.toNat - '0'.toNat) + 1) * 10 ^ ds.length := hrest
      _ ≤ (n + 1) * 10 * 10 ^ ds.length := mul_le_mul_right _ hnext
      _ = (n + 1) * 10 ^ (d :: ds).length := by
        rw [length_cons, pow_succ', mul_assoc]

theorem length_toDigits_le {ds : List Char} (hne : ds ≠ []) (h : ∀ c ∈ ds, c.isDigit = true) :
    (toDigits 10 (ofDigitChars 10 ds 0)).length ≤ ds.length := by
  refine (length_toDigits_le_iff (by decide) (length_pos_iff.2 hne)).2 ?_
  have := ofDigitChars_lt ds 0 h
  omega

theorem isAscii_of_isDigit {c : Char} (h : c.isDigit = true) : c.toNat < 128 := by
  obtain ⟨-, -, h57⟩ := digitByte_toNat h
  omega

theorem length_asBytes_of_ascii (h : ∀ c ∈ s.toList, c.toNat < 128) :
    (asBytes s).length = s.toList.length := by
  rw [asBytes_of_ascii h, length_map]

theorem isAscii_toString {n : ℤ} : ∀ c ∈ (toString n).toList, c.toNat < 128 := by
  intro c hc
  rw [toList_toString, mem_append] at hc
  rcases hc with hc | hc
  · split_ifs at hc
    · cases mem_singleton.1 hc
      decide
    · cases hc
  · exact isAscii_of_isDigit (isDigit_of_mem_toDigits hc)

theorem length_asBytes_toString (n : ℕ) :
    (asBytes (toString n)).length = (toDigits 10 n).length := by
  have hlist : (toString n).toList = toDigits 10 n := toList_repr
  rw [length_asBytes_of_ascii, hlist]
  rw [hlist]
  exact fun c hc => isAscii_of_isDigit (isDigit_of_mem_toDigits hc)

theorem parseNat_toString (n : ℕ) : parseNat (toString n) = some n := by
  have hlist : (toString n).toList = toDigits 10 n := toList_repr
  have hall : (toDigits 10 n).all Char.isDigit = true :=
    all_eq_true.2 fun c hc => isDigit_of_mem_toDigits hc
  unfold parseNat
  simp only [hlist]
  split
  · rename_i ds hds
    rw [hds, all_cons] at hall
    exact absurd hall (by simp)
  · rw [if_pos ⟨toDigits_ne_nil, hall⟩, ofDigitChars_ten_toDigits]

theorem length_of_parseNat {n : ℕ} (h : parseNat s = some n) :
    (asBytes (toString n)).length ≤ (asBytes s).length := by
  have hdigits : ∀ {ds : List Char}, (if ds ≠ [] ∧ ds.all Char.isDigit = true then
      some (ofDigitChars 10 ds 0) else none) = some n →
      (∀ c ∈ ds, c.toNat < 128) ∧ (toDigits 10 n).length ≤ ds.length := by
    intro ds hds
    split_ifs at hds with hall
    cases hds
    have hd := all_eq_true.1 hall.2
    exact ⟨fun c hc => isAscii_of_isDigit (hd c hc), length_toDigits_le hall.1 hd⟩
  rw [length_asBytes_toString]
  unfold parseNat at h
  split at h
  · rename_i ds hs
    obtain ⟨hascii, hlen⟩ := hdigits h
    rw [length_asBytes_of_ascii, hs, length_cons]
    · omega
    rw [hs]
    intro c hc
    rcases mem_cons.1 hc with rfl | hc
    · decide
    · exact hascii c hc
  · obtain ⟨hascii, hlen⟩ := hdigits h
    rwa [length_asBytes_of_ascii hascii]

theorem numeral_unsigned (bits : ℕ) {ofNat : ℕ → α} {toNat : α → ℕ} (hlt : ∀ a, toNat a < 2 ^ bits)
    (hof : ∀ a, ofNat (toNat a) = a) (hto : ∀ n, n < 2 ^ bits → toNat (ofNat n) = n) :
    Numeral (fun s => ((parseNat s).filter (· < 2 ^ bits)).map ofNat)
      fun a => toString (toNat a) where
  read_text a := by
    rw [parseNat_toString, filter_some, if_pos (decide_eq_true (hlt a)), map_some, hof]
  length_le s a h := by
    obtain ⟨n, hn, rfl⟩ := map_eq_some_iff.1 h
    obtain ⟨hn, hlt⟩ := filter_eq_some_iff.1 hn
    rw [hto n (of_decide_eq_true hlt)]
    exact length_of_parseNat hn

theorem numeral_u8 : Numeral readU8 fun n => toString n.toNat :=
  numeral_unsigned 8 UInt8.toNat_lt (fun _ => UInt8.ofNat_toNat) fun _ => UInt8.toNat_ofNat_of_lt'

theorem numeral_u32 : Numeral readU32 fun n => toString n.toNat :=
  numeral_unsigned 32 UInt32.toNat_lt (fun _ => UInt32.ofNat_toNat)
    fun _ => UInt32.toNat_ofNat_of_lt'

theorem numeral_u64 : Numeral readU64 fun n => toString n.toNat :=
  numeral_unsigned 64 UInt64.toNat_lt (fun _ => UInt64.ofNat_toNat)
    fun _ => UInt64.toNat_ofNat_of_lt'

theorem length_asBytes_toString_int (n : ℤ) : (asBytes (toString n)).length =
    (if n < 0 then 1 else 0) + (toDigits 10 n.natAbs).length := by
  rw [length_asBytes_of_ascii isAscii_toString, toList_toString, length_append]
  split_ifs <;> rfl

theorem length_of_parseI64 {n : ℤ} (h : Kamino.parseI64 s = some n) :
    (asBytes (toString n)).length ≤ (asBytes s).length := by
  have hdigits : ∀ {ds : List Char} {m : ℤ}, (if ds ≠ [] ∧ ds.all Char.isDigit = true then
      some (ds.foldl (fun (n : ℤ) d => 10 * n + (d.toNat - '0'.toNat)) 0) else none) = some m →
      (∀ c ∈ ds, c.toNat < 128) ∧ 0 ≤ m ∧ (toDigits 10 m.natAbs).length ≤ ds.length := by
    intro ds m hds
    split_ifs at hds with hall
    have hd := all_eq_true.1 hall.2
    have hvalue := foldl_digits ds hd 0
    rw [cast_zero] at hvalue
    rw [hvalue, some.injEq] at hds
    subst hds
    exact ⟨fun c hc => isAscii_of_isDigit (hd c hc), Int.natCast_nonneg _,
      length_toDigits_le hall.1 hd⟩
  have hsigned : ∀ {c : Char} {ds : List Char}, c.toNat < 128 → (∀ c ∈ ds, c.toNat < 128) →
      s.toList = c :: ds → (asBytes s).length = ds.length + 1 := by
    intro c ds hc hds hs
    rw [length_asBytes_of_ascii, hs, length_cons]
    rw [hs]
    exact forall_mem_cons.2 ⟨hc, hds⟩
  rw [length_asBytes_toString_int]
  unfold Kamino.parseI64 at h
  obtain ⟨h, -⟩ := filter_eq_some_iff.1 h
  split at h
  · rename_i ds hs
    obtain ⟨m, hm, rfl⟩ := map_eq_some_iff.1 h
    obtain ⟨hascii, hpos, hlen⟩ := hdigits hm
    rw [hsigned (by decide) hascii hs, Int.natAbs_neg]
    split_ifs <;> omega
  · rename_i ds hs
    obtain ⟨hascii, hpos, hlen⟩ := hdigits h
    rw [hsigned (by decide) hascii hs, if_neg (by omega)]
    omega
  · obtain ⟨hascii, hpos, hlen⟩ := hdigits h
    rw [length_asBytes_of_ascii hascii, if_neg (by omega)]
    omega

theorem numeral_i64 : Numeral readI64 fun n => toString n.toInt where
  read_text n := by
    rw [readI64, parseI64_toString, filter_some, if_pos (decide_eq_true ⟨n.le_toInt, n.toInt_lt⟩),
      map_some, Int64.ofInt_toInt]
  length_le s n h := by
    obtain ⟨m, hm, rfl⟩ := map_eq_some_iff.1 h
    have hrange := (filter_eq_some_iff.1 hm).2
    simp only [decide_eq_true_eq] at hrange
    rw [Int64.toInt_ofInt_of_le hrange.1 hrange.2]
    exact length_of_parseI64 hm

variable {printable : Char → Bool} {α : Type} {read : String → Option α} {text : α → String}
  {command field : String}

theorem Numeral.parseInt_text (h : Numeral read text) (n : α) :
    parseInt printable read (asBytes (text n)) command field = .ok n := by
  simp [parseInt, fromUtf8_asBytes, h.read_text]

theorem Numeral.length_of_parseInt (h : Numeral read text) {n : α}
    (hp : parseInt printable read b command field = .ok n) :
    (asBytes (text n)).length ≤ b.length := by
  unfold parseInt at hp
  split at hp
  · cases hp
  rename_i s hs
  split at hp
  · cases hp
  rename_i m hm
  cases hp
  rw [← asBytes_of_fromUtf8 hs]
  exact h.length_le s _ hm

end Numerals

section Keywords

theorem eqAsciiCi_self (lit : String) : eqAsciiCi (asBytes lit) lit = true :=
  decide_eq_true rfl

theorem length_of_eqAsciiCi {tok : Bytes} {lit : String} (h : eqAsciiCi tok lit = true) :
    (asBytes lit).length = tok.length := by
  have := congrArg length (of_decide_eq_true h)
  rw [length_map, length_map] at this
  exact this.symm

namespace Verb

theorem mem_all (v : Verb) : v ∈ all := by
  cases v <;> decide

theorem ofBytes_name (v : Verb) : ofBytes (asBytes v.name) = some v := by
  have h : ∀ v ∈ all, ofBytes (asBytes v.name) = some v := by decide +kernel
  exact h v (mem_all v)

theorem length_of_ofBytes {v : Verb} (h : ofBytes b = some v) :
    (asBytes v.name).length = b.length := by
  have hshort : ∀ v ∈ all, (asBytes v.name).length < 32 := by decide +kernel
  have hv := hshort v (mem_all v)
  have hfound : asBytes v.name = (b.take 32).map toAsciiUppercase := by
    have := find?_some h
    exact of_decide_eq_true this
  have hlen := congrArg length hfound
  rw [length_map, length_take] at hlen
  omega

end Verb

end Keywords

/-! ### What is printed is read back -/

namespace Command

variable {printable : Char → Bool} {f64 : F64Text}

/-- What `parse` sees to. -/
def WellFormed : Command → Prop
  | hello args => ∀ user pass, args.auth = some (user, pass) → user ≠ none
  | dmPut _ _ _ o => ¬ (o.nx = true ∧ o.xx = true) ∧ expiryCount o ≤ 1
  | dmDel _ keys => keys ≠ []
  | subscribe channels => channels ≠ []
  | psubscribe patterns => patterns ≠ []
  | _ => True

section PutOptions

theorem putOptions_valued {read : String → Option α} {text : α → String} (lit : String)
    (get : PutOptions → Option α) (set : PutOptions → Option α → PutOptions)
    (hnum : Numeral read text) {o : PutOptions} {rest : List Bytes} (hget : get o = none)
    (hset : set o (get o) = o)
    (hstep : ∀ v, putOptions printable (asBytes lit :: v :: rest) o =
      once "DM.PUT" lit (get o) (parseInt printable read v "DM.PUT" lit) >>= fun n =>
        putOptions printable rest (set o (some n))) (x : Option α) :
    putOptions printable (optionParts lit (x.map fun n => asBytes (text n)) ++ rest) o =
      putOptions printable rest (set o x) := by
  rcases x with _ | n
  · rw [hget] at hset
    rw [hset]
    rfl
  · change putOptions printable (asBytes lit :: asBytes (text n) :: rest) o = _
    rw [hstep, hget, hnum.parseInt_text]
    rfl

theorem putOptions_flag (lit : String) (set : PutOptions → Bool → PutOptions) {o : PutOptions}
    {rest : List Bytes} (hset : set o false = o)
    (hstep : putOptions printable (asBytes lit :: rest) o =
      putOptions printable rest (set o true)) (x : Bool) :
    putOptions printable (flagParts lit x ++ rest) o = putOptions printable rest (set o x) := by
  cases x
  · rw [hset]
    rfl
  · exact hstep

variable {o : PutOptions} {rest : List Bytes}

theorem putOptions_nx : putOptions printable (asBytes "NX" :: rest) o =
    putOptions printable rest { o with nx := true } := by
  rw [putOptions.eq_def]
  simp only []
  rw [if_neg (by decide), if_neg (by decide), if_neg (by decide), if_neg (by decide),
    if_pos (eqAsciiCi_self _)]

theorem putOptions_xx : putOptions printable (asBytes "XX" :: rest) o =
    putOptions printable rest { o with xx := true } := by
  rw [putOptions.eq_def]
  simp only []
  rw [if_neg (by decide), if_neg (by decide), if_neg (by decide), if_neg (by decide),
    if_neg (by decide), if_pos (eqAsciiCi_self _)]

theorem putOptions_parts (o : PutOptions) :
    putOptions printable (putOptionsParts o) {} = .ok o := by
  unfold putOptionsParts natText
  rw [putOptions_valued "EX" PutOptions.ex (fun o x => { o with ex := x }) numeral_u64 rfl rfl
      fun _ => rfl,
    putOptions_valued "PX" PutOptions.px (fun o x => { o with px := x }) numeral_u64 rfl rfl
      fun _ => rfl,
    putOptions_valued "EXAT" PutOptions.exat (fun o x => { o with exat := x }) numeral_u64 rfl rfl
      fun _ => rfl,
    putOptions_valued "PXAT" PutOptions.pxat (fun o x => { o with pxat := x }) numeral_u64 rfl rfl
      fun _ => rfl,
    putOptions_flag "NX" (fun o x => { o with nx := x }) rfl putOptions_nx,
    putOptions_flag "XX" (fun o x => { o with xx := x }) rfl putOptions_xx,
    ← append_nil (optionParts "TS" _),
    putOptions_valued "TS" PutOptions.timestamp (fun o x => { o with timestamp := x }) numeral_i64
      rfl rfl fun _ => rfl]
  rfl

end PutOptions

section Hello

theorem isAsciiDigit_toAsciiUppercase {b : UInt8} (h : isAsciiDigit b = true) :
    isAsciiDigit (toAsciiUppercase b) = true := by
  simp only [isAsciiDigit, Bool.and_eq_true, decide_eq_true_eq, UInt8.le_iff_toNat_le] at h
  rw [toAsciiUppercase, if_neg]
  · simp only [isAsciiDigit, Bool.and_eq_true, decide_eq_true_eq, UInt8.le_iff_toNat_le]
    exact h
  simp only [Bool.and_eq_true, decide_eq_true_eq, UInt8.le_iff_toNat_le]
  have h57 : (57 : UInt8).toNat = 57 := rfl
  have h97 : (97 : UInt8).toNat = 97 := rfl
  omega

theorem eqAsciiCi_natText (n : ℕ) {lit : String}
    (h : ((asBytes lit).map toAsciiUppercase).all (!isAsciiDigit ·) = true) :
    eqAsciiCi (natText n) lit = false := by
  have hlist : (toString n).toList = toDigits 10 n := toList_repr
  have hbytes : natText n = (toDigits 10 n).map Char.toUInt8 := by
    rw [natText, asBytes_of_ascii, hlist]
    rw [hlist]
    exact fun c hc => isAscii_of_isDigit (isDigit_of_mem_toDigits hc)
  obtain ⟨d, ds, hds⟩ := exists_cons_of_ne_nil (toDigits_ne_nil (n := n) (b := 10))
  have hd : isAsciiDigit d.toUInt8 = true := by
    have hdigit := isDigit_of_mem_toDigits (hds ▸ mem_cons_self : d ∈ toDigits 10 n)
    obtain ⟨hbyte, h48, h57⟩ := digitByte_toNat hdigit
    have hnat : d.toUInt8.toNat = d.toNat := by
      rw [Char.toUInt8, UInt32.toNat_toUInt8]
      change d.toNat % 2 ^ 8 = d.toNat
      omega
    simp only [isAsciiDigit, Bool.and_eq_true, decide_eq_true_eq, UInt8.le_iff_toNat_le, hnat]
    exact ⟨h48, h57⟩
  have hupper := isAsciiDigit_toAsciiUppercase hd
  refine decide_eq_false fun heq => ?_
  rw [hbytes, hds, map_cons, map_cons] at heq
  have hmem : toAsciiUppercase d.toUInt8 ∈ (asBytes lit).map toAsciiUppercase :=
    heq ▸ mem_cons_self
  have hno := all_eq_true.1 h _ hmem
  rw [hupper] at hno
  cases hno

theorem helloClauses_setname (name : Option Bytes) (hello : HelloArgs)
    (h : hello.clientName = none) :
    helloClauses printable (optionParts "SETNAME" name) hello =
      .ok { hello with clientName := name } := by
  rcases name with _ | name
  · have hsame : { hello with clientName := none } = hello := by rw [← h]
    rw [hsame]
    rfl
  change helloClauses printable [asBytes "SETNAME", name] hello = _
  rw [helloClauses.eq_def]
  simp only []
  rw [if_neg (by decide), if_pos (eqAsciiCi_self _)]
  rfl

theorem helloClauses_auth (user pass : Bytes) (rest : List Bytes) (hello : HelloArgs) :
    helloClauses printable (asBytes "AUTH" :: user :: pass :: rest) hello =
      helloClauses printable rest { hello with auth := some (some user, pass) } := by
  rw [helloClauses.eq_def]
  simp only []
  rw [if_pos (eqAsciiCi_self _)]

theorem parseHello_parts (args : HelloArgs) (h : (hello args).WellFormed) :
    parseHello printable (helloParts args) = .ok (hello args) := by
  obtain ⟨version, authed, name⟩ := args
  -- The clauses after the version, on what has been read so far.
  have hclauses : ∀ acc : HelloArgs, acc.auth = none → acc.clientName = none →
      helloClauses printable (helloParts ⟨none, authed, name⟩) acc =
        .ok ⟨acc.protocolVersion, authed, name⟩ := by
    rintro ⟨version, _, _⟩ rfl rfl
    rcases authed with _ | ⟨_ | user, pass⟩
    · exact helloClauses_setname name _ rfl
    · exact absurd rfl (h none pass rfl)
    · change helloClauses printable (asBytes "AUTH" :: user :: pass :: optionParts "SETNAME" name) _
        = _
      rw [helloClauses_auth, helloClauses_setname name _ rfl]
  rcases version with _ | version
  · rcases hparts : helloParts ⟨none, authed, name⟩ with _ | ⟨first, rest⟩
    · have hall := hclauses {} rfl rfl
      rw [hparts] at hall
      cases hall
      rfl
    have hkeyword : (!eqAsciiCi first "AUTH" && !eqAsciiCi first "SETNAME") = false := by
      rcases authed with _ | ⟨user, pass⟩
      · rcases name with _ | name
        · cases hparts
        · cases hparts
          decide
      · cases hparts
        decide
    rw [parseHello, hkeyword, ← hparts, hclauses {} rfl rfl]
    rfl
  · have hfirst : (!eqAsciiCi (natText version.toNat) "AUTH" &&
        !eqAsciiCi (natText version.toNat) "SETNAME") = true := by
      rw [eqAsciiCi_natText _ rfl, eqAsciiCi_natText _ rfl]
      rfl
    change parseHello printable (natText version.toNat :: helloParts ⟨none, authed, name⟩) = _
    rw [parseHello, if_pos hfirst, natText, numeral_u32.parseInt_text]
    change (helloClauses printable (helloParts ⟨none, authed, name⟩)
      { protocolVersion := some version } >>= fun hello => pure (Command.hello hello)) = _
    rw [hclauses _ rfl rfl]
    rfl

end Hello

section Scan

theorem scanOptions_parts (o : ScanCommandOptions) :
    scanOptions printable (scanOptionsParts o) {} = .ok o := by
  obtain ⟨pattern, count⟩ := o
  have hcount : ∀ acc : ScanCommandOptions, acc.count = none →
      scanOptions printable (optionParts "COUNT" (count.map fun c => natText c.toNat)) acc =
        .ok { acc with count := count } := by
    rintro ⟨pattern, _⟩ rfl
    rcases count with _ | count
    · rfl
    change scanOptions printable [asBytes "COUNT", natText count.toNat] _ = _
    rw [scanOptions, if_neg (by decide), if_pos (eqAsciiCi_self _)]
    simp only [once, isSome_none, Bool.false_eq_true, if_false]
    rw [natText, numeral_u32.parseInt_text]
    rfl
  rcases pattern with _ | pattern
  · exact hcount {} rfl
  change scanOptions printable (asBytes "MATCH" :: pattern ::
    optionParts "COUNT" (count.map fun c => natText c.toNat)) {} = _
  rw [scanOptions, if_pos (eqAsciiCi_self _)]
  exact hcount { matchPattern := some pattern } rfl

end Scan

theorem mapM_bulkArg (args : List Bytes) :
    (args.map fun b => Frame.bulk (some b)).mapM bulkArg = .ok args := by
  induction args with
  | nil => rfl
  | cons b args ih =>
    rw [map_cons, mapM_cons, ih]
    rfl

theorem parse_frameOf (verb : Bytes) (args : List Bytes) :
    parse printable f64 (frameOf (verb :: args)) = ofArgs printable f64 verb args := by
  unfold parse frameOf
  simp only [map_cons]
  rw [mapM_bulkArg]
  rfl

theorem parse_name (v : Verb) (args : List Bytes) :
    parse printable f64 (frameOf (asBytes v.name :: args)) = v.parse printable f64 args := by
  rw [parse_frameOf, ofArgs, v.ofBytes_name]

theorem parseNumbered_text {read : String → Option α} {text : α → String} {command field : String}
    (hnum : Numeral read text) (mk : Bytes → Bytes → α → Command) (dmap key : Bytes) (n : α) :
    parseNumbered printable read command field mk [dmap, key, asBytes (text n)] =
      .ok (mk dmap key n) := by
  simp only [parseNumbered, hnum.parseInt_text]
  rfl

theorem parseChannels_of_ne_nil {command : String} {names : List Bytes} (mk : List Bytes → Command)
    (h : names ≠ []) : parseChannels command mk names = .ok (mk names) := by
  obtain ⟨name, names, rfl⟩ := exists_cons_of_ne_nil h
  rfl

theorem parse_parts {cmd : Command} (h : cmd.WellFormed)
    (hfloat : ∀ dmap key delta, cmd ≠ dmIncrByFloat dmap key delta) :
    parse printable f64 (cmd.toFrame f64) = .ok cmd := by
  cases cmd with
  | ping message =>
    refine (parse_name .ping _).trans ?_
    cases message <;> rfl
  | auth username password =>
    refine (parse_name .auth _).trans ?_
    cases username <;> rfl
  | hello args => exact (parse_name .hello _).trans (parseHello_parts args h)
  | quit => exact parse_name .quit _
  | stats => exact parse_name .stats _
  | dmPut dmap key value o =>
    refine (parse_name .dmPut _).trans ?_
    change (putOptions printable (putOptionsParts o) {} >>= _) = _
    rw [putOptions_parts]
    change (if (o.nx && o.xx) = true then _ else if 1 < expiryCount o then _ else _) = _
    rw [if_neg (by rw [Bool.and_eq_true]; exact h.1), if_neg (not_lt.2 h.2)]
    rfl
  | dmGet dmap key => exact parse_name .dmGet _
  | dmDel dmap keys =>
    refine (parse_name .dmDel _).trans ?_
    rcases keys with _ | ⟨key, keys⟩
    · exact absurd rfl h
    · rfl
  | dmExpire => exact (parse_name .dmExpire _).trans (parseNumbered_text numeral_u64 _ _ _ _)
  | dmPexpire => exact (parse_name .dmPexpire _).trans (parseNumbered_text numeral_u64 _ _ _ _)
  | dmIncr => exact (parse_name .dmIncr _).trans (parseNumbered_text numeral_i64 _ _ _ _)
  | dmDecr => exact (parse_name .dmDecr _).trans (parseNumbered_text numeral_i64 _ _ _ _)
  | dmGetPut dmap key value => exact parse_name .dmGetput _
  | dmIncrByFloat dmap key delta => exact absurd rfl (hfloat dmap key delta)
  | dmDestroy dmap => exact parse_name .dmDestroy _
  | dmScan part dmap cursor o =>
    refine (parse_name .dmScan _).trans ?_
    change (parseInt printable readU32 (natText _) _ _ >>= fun part =>
      parseInt printable readU64 (natText _) _ _ >>= fun cursor =>
      scanOptions printable (scanOptionsParts o) {} >>= _) = _
    rw [natText, numeral_u32.parseInt_text, natText, numeral_u64.parseInt_text, scanOptions_parts]
    rfl
  | clusterMembers => exact parse_name .clusterMembers _
  | clusterRoutingTable => exact parse_name .clusterRoutingTable _
  | clusterReady => exact parse_name .clusterReady _
  | internalNodeUpdateRouting table => exact parse_name .internalUpdateRouting _
  | internalNodeLengthOfPart part =>
    refine (parse_name .internalLengthOfPart _).trans ?_
    change (parseInt printable readU32 (natText _) _ _ >>= _) = _
    rw [natText, numeral_u32.parseInt_text]
    rfl
  | internalNodeGetWithTs dmap key => exact parse_name .internalGetWithTs _
  | internalNodeMoveFragment part type dmap payload =>
    refine (parse_name .internalMoveFragment _).trans ?_
    change (parseInt printable readU32 (natText _) _ _ >>= fun part =>
      parseInt printable readU8 (natText _) _ _ >>= _) = _
    rw [natText, numeral_u32.parseInt_text, natText, numeral_u8.parseInt_text]
    cases type <;> rfl
  | internalNodePublish channel message => exact parse_name .internalPublish _
  | subscribe => exact (parse_name .subscribe _).trans (parseChannels_of_ne_nil _ h)
  | psubscribe => exact (parse_name .psubscribe _).trans (parseChannels_of_ne_nil _ h)
  | unsubscribe channels => exact parse_name .unsubscribe _
  | punsubscribe patterns => exact parse_name .punsubscribe _
  | publish channel message => exact parse_name .publish _
  | pubsubChannels pattern =>
    refine (parse_name .pubsub _).trans ?_
    cases pattern <;> rfl
  | pubsubNumsub channels => exact parse_name .pubsub _
  | pubsubNumpat => exact parse_name .pubsub _

/-! ### What is accepted -/

/-- Of printed parts and the arguments they come from: there are no more of them, and each is at
most as long as some argument. -/
def Fits (parts args : List Bytes) : Prop :=
  parts.length ≤ args.length ∧ ∀ p ∈ parts, ∃ a ∈ args, p.length ≤ a.length

namespace Fits

variable {ps qs xs args : List Bytes} {p a : Bytes}

theorem refl (ps : List Bytes) : Fits ps ps := ⟨le_rfl, fun p hp => ⟨p, hp, le_rfl⟩⟩

theorem nil (args : List Bytes) : Fits [] args := ⟨zero_le _, fun _ h => by cases h⟩

theorem cons (hp : p.length ≤ a.length) (h : Fits ps args) : Fits (p :: ps) (a :: args) := by
  refine ⟨succ_le_succ h.1, forall_mem_cons.2 ⟨⟨a, mem_cons_self, hp⟩, ?_⟩⟩
  intro q hq
  obtain ⟨b, hb, hle⟩ := h.2 q hq
  exact ⟨b, mem_cons_of_mem a hb, hle⟩

theorem sublist (h : Fits ps args) (hqs : qs.Sublist ps) : Fits qs args :=
  ⟨hqs.length_le.trans h.1, fun q hq => h.2 q (hqs.subset hq)⟩

theorem insert {parts toks rest : List Bytes} (h : Fits ps args) (hx : Fits xs toks)
    (hqs : qs.Perm (xs ++ ps)) (hrest : ∀ {args}, Fits qs args → Fits parts (args ++ rest)) :
    Fits parts (args ++ (toks ++ rest)) := by
  rw [← append_assoc]
  refine hrest ⟨?_, fun q hq => ?_⟩
  · rw [hqs.length_eq, length_append, length_append, add_comm]
    exact Nat.add_le_add h.1 hx.1
  rcases mem_append.1 (hqs.mem_iff.1 hq) with hq | hq
  · obtain ⟨a, ha, hle⟩ := hx.2 q hq
    exact ⟨a, mem_append_right _ ha, hle⟩
  · obtain ⟨a, ha, hle⟩ := h.2 q hq
    exact ⟨a, mem_append_left _ ha, hle⟩

end Fits

variable {α : Type}

theorem bind_eq_ok {ε β : Type} {x : Except ε α} {f : α → Except ε β} {b : β}
    (h : x >>= f = .ok b) : ∃ a, x = .ok a ∧ f a = .ok b := by
  rcases x with e | a
  · cases h
  · exact ⟨a, rfl, h⟩

theorem once_eq_ok {β : Type} {command name : String} {current : Option α}
    {value : Except CommandError β} {b : β} (h : once command name current value = .ok b) :
    current = none ∧ value = .ok b := by
  unfold once at h
  split_ifs at h with hsome
  exact ⟨by simpa using hsome, h⟩

theorem fits_valued {β : Type} {read : String → Option α} {text : α → String}
    (hnum : Numeral read text) {lit command field : String} {current : Option α} {tok v : Bytes}
    {next : α → Except CommandError β} {b : β} (htok : eqAsciiCi tok lit = true)
    (h : once command lit current (parseInt printable read v command field) >>= next = .ok b) :
    ∃ n, current = none ∧ next n = .ok b ∧ Fits [asBytes lit, asBytes (text n)] [tok, v] := by
  obtain ⟨n, hn, hrest⟩ := bind_eq_ok h
  obtain ⟨hnone, hn⟩ := once_eq_ok hn
  exact ⟨n, hnone, hrest,
    .cons (length_of_eqAsciiCi htok).le (.cons (hnum.length_of_parseInt hn) (.nil _))⟩

theorem perm_skip (pre : List α) {xs qs ps : List α} (h : qs.Perm (xs ++ ps)) :
    (pre ++ qs).Perm (xs ++ (pre ++ ps)) :=
  (h.append_left pre).trans (perm_append_comm_assoc pre xs ps)

theorem putOptions_fits : ∀ {rest : List Bytes} {o o' : PutOptions},
    putOptions printable rest o = .ok o' → ∀ {args : List Bytes}, Fits (putOptionsParts o) args →
      Fits (putOptionsParts o') (args ++ rest)
  | [], o, o', h, args, hf => by
    cases h
    rwa [append_nil]
  | tok :: rest, o, o', h, args, hf => by
    rw [putOptions.eq_def] at h
    simp only [] at h
    split_ifs at h with hex hpx hexat hpxat hnx hxx hts
    · split at h
      · cases h
      obtain ⟨n, hnone, hrest, hnew⟩ := fits_valued numeral_u64 hex h
      refine hf.insert hnew ?_ (putOptions_fits hrest)
      rw [putOptionsParts, putOptionsParts, hnone]
      exact (.refl _)
    · split at h
      · cases h
      obtain ⟨n, hnone, hrest, hnew⟩ := fits_valued numeral_u64 hpx h
      refine hf.insert hnew ?_ (putOptions_fits hrest)
      rw [putOptionsParts, putOptionsParts, hnone]
      exact perm_skip _ (.refl _)
    · split at h
      · cases h
      obtain ⟨n, hnone, hrest, hnew⟩ := fits_valued numeral_u64 hexat h
      refine hf.insert hnew ?_ (putOptions_fits hrest)
      rw [putOptionsParts, putOptionsParts, hnone]
      exact perm_skip _ (perm_skip _ (.refl _))
    · split at h
      · cases h
      obtain ⟨n, hnone, hrest, hnew⟩ := fits_valued numeral_u64 hpxat h
      refine hf.insert hnew ?_ (putOptions_fits hrest)
      rw [putOptionsParts, putOptionsParts, hnone]
      exact perm_skip _ (perm_skip _ (perm_skip _ (.refl _)))
    · have hnew : Fits [asBytes "NX"] [tok] := .cons (length_of_eqAsciiCi hnx).le (.nil _)
      rcases ho : o.nx with _ | _
      · refine hf.insert hnew ?_ (putOptions_fits h)
        rw [putOptionsParts, putOptionsParts, ho]
        exact perm_skip _ (perm_skip _ (perm_skip _ (perm_skip _ (.refl _))))
      · refine hf.insert (.nil [tok]) ?_ (putOptions_fits h)
        rw [putOptionsParts, putOptionsParts, ho]
        exact .refl _
    · have hnew : Fits [asBytes "XX"] [tok] := .cons (length_of_eqAsciiCi hxx).le (.nil _)
      rcases ho : o.xx with _ | _
      · refine hf.insert hnew ?_ (putOptions_fits h)
        rw [putOptionsParts, putOptionsParts, ho]
        exact perm_skip _ (perm_skip _ (perm_skip _ (perm_skip _ (perm_skip _ (.refl _)))))
      · refine hf.insert (.nil [tok]) ?_ (putOptions_fits h)
        rw [putOptionsParts, putOptionsParts, ho]
        exact .refl _
    · split at h
      · cases h
      obtain ⟨n, hnone, hrest, hnew⟩ := fits_valued numeral_i64 hts h
      refine hf.insert hnew ?_ (putOptions_fits hrest)
      rw [putOptionsParts, putOptionsParts, hnone]
      exact perm_skip _ (perm_skip _ (perm_skip _ (perm_skip _
        (perm_skip _ (perm_skip _ (.of_eq rfl))))))

theorem helloClauses_fits : ∀ {rest : List Bytes} {acc args : HelloArgs},
    helloClauses printable rest acc = .ok args → (hello acc).WellFormed →
    ∀ {toks : List Bytes}, Fits (helloParts acc) toks →
      (hello args).WellFormed ∧ Fits (helloParts args) (toks ++ rest)
  | [], acc, args, h, hwf, toks, hf => by
    cases h
    rw [append_nil]
    exact ⟨hwf, hf⟩
  | tok :: rest, acc, args, h, hwf, toks, hf => by
    rw [helloClauses.eq_def] at h
    simp only [] at h
    split_ifs at h with hauth hname
    · split at h
      · rename_i user pass rest
        have hnew : Fits [asBytes "AUTH", user, pass] [tok, user, pass] :=
          .cons (length_of_eqAsciiCi hauth).le (.refl _)
        have hwf' : (hello { acc with auth := some (some user, pass) }).WellFormed := by
          intro u p hu
          cases hu
          exact some_ne_none user
        have hkept : Fits (helloParts { acc with auth := none }) toks :=
          hf.sublist ((sublist_append_right _ _).append_left _)
        refine ⟨(helloClauses_fits h hwf' (.refl _)).1,
          hkept.insert hnew (perm_skip _ (.refl _)) fun hq => (helloClauses_fits h hwf' hq).2⟩
      · cases h
    · split at h
      · rename_i name rest
        have hnew : Fits [asBytes "SETNAME", name] [tok, name] :=
          .cons (length_of_eqAsciiCi hname).le (.refl _)
        have hwf' : (hello { acc with clientName := some name }).WellFormed := hwf
        have hkept : Fits (helloParts { acc with clientName := none }) toks :=
          hf.sublist (((nil_sublist _).append_left _).append_left _)
        refine ⟨(helloClauses_fits h hwf' (.refl _)).1,
          hkept.insert hnew (perm_skip _ (perm_skip _ (.of_eq rfl))) fun hq =>
            (helloClauses_fits h hwf' hq).2⟩
      · cases h

theorem scanOptions_fits : ∀ {rest : List Bytes} {o o' : ScanCommandOptions},
    scanOptions printable rest o = .ok o' → ∀ {args : List Bytes}, Fits (scanOptionsParts o) args →
      Fits (scanOptionsParts o') (args ++ rest)
  | [], o, o', h, args, hf => by
    cases h
    rwa [append_nil]
  | tok :: rest, o, o', h, args, hf => by
    rw [scanOptions.eq_def] at h
    simp only [] at h
    split_ifs at h with hmatch hcount
    · split at h
      · cases h
      rename_i pat rest
      obtain ⟨n, hn, hrest⟩ := bind_eq_ok h
      obtain ⟨hnone, hn⟩ := once_eq_ok hn
      cases hn
      have hnew : Fits [asBytes "MATCH", pat] [tok, pat] :=
        .cons (length_of_eqAsciiCi hmatch).le (.refl _)
      refine hf.insert hnew ?_ (scanOptions_fits hrest)
      rw [scanOptionsParts, scanOptionsParts, hnone]
      exact .refl _
    · split at h
      · cases h
      obtain ⟨n, hnone, hrest, hnew⟩ := fits_valued numeral_u32 hcount h
      refine hf.insert hnew ?_ (scanOptions_fits hrest)
      rw [scanOptionsParts, scanOptionsParts, hnone]
      exact perm_skip _ (.of_eq rfl)

/-- The command is well formed, and is printed as the verb and parts that fit the arguments. -/
def PrintsAs (f64 : F64Text) (v : Verb) (args : List Bytes) (cmd : Command) : Prop :=
  cmd.WellFormed ∧ ∃ ps, cmd.parts f64 = asBytes v.name :: ps ∧ Fits ps args

section Accepted

variable {args : List Bytes} {cmd : Command} {command : String}

theorem parseBare_ok {bare : Command}
    (h : parseBare command bare args = .ok cmd) : args = [] ∧ cmd = bare := by
  unfold parseBare at h
  split at h <;> cases h
  exact ⟨rfl, rfl⟩

theorem parseNumbered_ok {read : String → Option α} {text : α → String}
    (hnum : Numeral read text) {field : String} {mk : Bytes → Bytes → α → Command}
    (h : parseNumbered printable read command field mk args = .ok cmd) :
    ∃ dmap key n, cmd = mk dmap key n ∧ Fits [dmap, key, asBytes (text n)] args := by
  unfold parseNumbered at h
  split at h
  · rename_i dmap key raw
    obtain ⟨n, hn, hcmd⟩ := bind_eq_ok h
    cases hcmd
    exact ⟨dmap, key, n, rfl, .cons le_rfl (.cons le_rfl
      (.cons (hnum.length_of_parseInt hn) (.nil _)))⟩
  · cases h

theorem parseMessage_ok {mk : Bytes → Bytes → Command}
    (h : parseMessage command mk args = .ok cmd) :
    ∃ channel message, cmd = mk channel message ∧ args = [channel, message] := by
  unfold parseMessage at h
  split at h <;> cases h
  exact ⟨_, _, rfl, rfl⟩

theorem parseChannels_ok {mk : List Bytes → Command}
    (h : parseChannels command mk args = .ok cmd) : cmd = mk args ∧ args ≠ [] := by
  unfold parseChannels at h
  split at h <;> cases h
  exact ⟨rfl, cons_ne_nil _ _⟩

theorem parseHello_ok (h : parseHello printable args = .ok cmd) : PrintsAs f64 .hello args cmd := by
  unfold parseHello at h
  split at h
  · cases h
    exact ⟨fun _ _ h => absurd h (by simp), [], rfl, .nil _⟩
  rename_i first rest
  split_ifs at h with hfirst
  · obtain ⟨version, hversion, h⟩ := bind_eq_ok h
    obtain ⟨hello, hclauses, h⟩ := bind_eq_ok h
    cases h
    have hacc : Fits (helloParts { protocolVersion := some version }) [first] :=
      .cons (numeral_u32.length_of_parseInt hversion) (.nil _)
    obtain ⟨hwf, hfits⟩ := helloClauses_fits hclauses (fun _ _ h => absurd h (by simp)) hacc
    exact ⟨hwf, _, rfl, hfits⟩
  · obtain ⟨hello, hclauses, h⟩ := bind_eq_ok h
    cases h
    obtain ⟨hwf, hfits⟩ := helloClauses_fits hclauses (fun _ _ h => absurd h (by simp)) (.nil [])
    exact ⟨hwf, _, rfl, hfits⟩

theorem parseDmPut_ok (h : parseDmPut printable args = .ok cmd) : PrintsAs f64 .dmPut args cmd := by
  unfold parseDmPut at h
  split at h
  · obtain ⟨o, ho, h⟩ := bind_eq_ok h
    split_ifs at h with hflags hexpiry
    cases h
    refine ⟨⟨?_, not_lt.1 hexpiry⟩, _, rfl, .cons le_rfl (.cons le_rfl (.cons le_rfl ?_))⟩
    · rwa [Bool.and_eq_true] at hflags
    · exact putOptions_fits ho (.nil [])
  · cases h

theorem parseDmScan_ok (h : parseDmScan printable args = .ok cmd) :
    PrintsAs f64 .dmScan args cmd := by
  unfold parseDmScan at h
  split at h
  · obtain ⟨part, hpart, h⟩ := bind_eq_ok h
    obtain ⟨cursor, hcursor, h⟩ := bind_eq_ok h
    obtain ⟨o, ho, h⟩ := bind_eq_ok h
    cases h
    exact ⟨trivial, _, rfl, .cons (numeral_u32.length_of_parseInt hpart) (.cons le_rfl
      (.cons (numeral_u64.length_of_parseInt hcursor) (scanOptions_fits ho (.nil []))))⟩
  · cases h

theorem parseInternalMoveFragment_ok (h : parseInternalMoveFragment printable args = .ok cmd) :
    PrintsAs f64 .internalMoveFragment args cmd := by
  unfold parseInternalMoveFragment at h
  split at h
  · obtain ⟨part, hpart, h⟩ := bind_eq_ok h
    obtain ⟨byte, hbyte, h⟩ := bind_eq_ok h
    split at h
    · cases h
    rename_i type htype
    cases h
    have hprinted : type.asU8 = byte := by
      unfold PartitionType.fromU8 at htype
      split_ifs at htype with h0 h1
      · cases htype
        exact h0.symm
      · cases htype
        exact h1.symm
    have htext := numeral_u8.length_of_parseInt hbyte
    rw [← hprinted] at htext
    exact ⟨trivial, _, rfl, .cons (numeral_u32.length_of_parseInt hpart) (.cons htext (.refl _))⟩
  · cases h

theorem parsePubsub_ok (h : parsePubsub printable args = .ok cmd) :
    PrintsAs f64 .pubsub args cmd := by
  unfold parsePubsub at h
  split at h
  · cases h
  split_ifs at h with hchannels hnumsub hnumpat
  · split at h <;> cases h
    · exact ⟨trivial, _, rfl, .cons (length_of_eqAsciiCi hchannels).le (.nil _)⟩
    · exact ⟨trivial, _, rfl, .cons (length_of_eqAsciiCi hchannels).le (.refl _)⟩
  · cases h
    exact ⟨trivial, _, rfl, .cons (length_of_eqAsciiCi hnumsub).le (.refl _)⟩
  · split at h <;> cases h
    exact ⟨trivial, _, rfl, .cons (length_of_eqAsciiCi hnumpat).le (.nil _)⟩

theorem verb_parse_ok {v : Verb} (h : v.parse printable f64 args = .ok cmd)
    (hfloat : ∀ dmap key delta, cmd ≠ dmIncrByFloat dmap key delta) : PrintsAs f64 v args cmd := by
  cases v with
  | ping | auth | dmGet | dmGetput | dmDestroy | internalUpdateRouting | internalGetWithTs =>
    dsimp only [Verb.parse, parsePing, parseAuth, parseDmGet, parseDmGetput, parseDmDestroy,
      parseInternalUpdateRouting, parseInternalGetWithTs] at h
    split at h <;> cases h <;> exact ⟨trivial, _, rfl, .refl _⟩
  | hello => exact parseHello_ok h
  | quit | stats | clusterMembers | clusterRoutingTable | clusterReady =>
    obtain ⟨rfl, rfl⟩ := parseBare_ok h
    exact ⟨trivial, _, rfl, .nil _⟩
  | dmPut => exact parseDmPut_ok h
  | dmDel =>
    change parseDmDel args = .ok cmd at h
    unfold parseDmDel at h
    split at h <;> cases h
    exact ⟨cons_ne_nil _ _, _, rfl, .refl _⟩
  | dmExpire | dmPexpire =>
    obtain ⟨_, _, _, rfl, hfits⟩ := parseNumbered_ok numeral_u64 h
    exact ⟨trivial, _, rfl, hfits⟩
  | dmIncr | dmDecr =>
    obtain ⟨_, _, _, rfl, hfits⟩ := parseNumbered_ok numeral_i64 h
    exact ⟨trivial, _, rfl, hfits⟩
  | dmIncrbyfloat =>
    change parseDmIncrbyfloat printable f64 args = .ok cmd at h
    unfold parseDmIncrbyfloat at h
    split at h
    · obtain ⟨delta, -, hcmd⟩ := bind_eq_ok h
      cases hcmd
      exact absurd rfl (hfloat _ _ _)
    · cases h
  | dmScan => exact parseDmScan_ok h
  | internalLengthOfPart =>
    change parseInternalLengthOfPart printable args = .ok cmd at h
    unfold parseInternalLengthOfPart at h
    split at h
    · obtain ⟨part, hpart, hcmd⟩ := bind_eq_ok h
      cases hcmd
      exact ⟨trivial, _, rfl, .cons (numeral_u32.length_of_parseInt hpart) (.nil _)⟩
    · cases h
  | internalMoveFragment => exact parseInternalMoveFragment_ok h
  | internalPublish | publish =>
    obtain ⟨_, _, rfl, rfl⟩ := parseMessage_ok h
    exact ⟨trivial, _, rfl, .refl _⟩
  | subscribe | psubscribe =>
    obtain ⟨rfl, hne⟩ := parseChannels_ok h
    exact ⟨hne, _, rfl, .refl _⟩
  | unsubscribe | punsubscribe =>
    cases h
    exact ⟨trivial, _, rfl, .refl _⟩
  | pubsub => exact parsePubsub_ok h

theorem bulkArg_ok {item : Frame} (h : bulkArg item = .ok b) : item = .bulk (some b) := by
  unfold bulkArg at h
  split at h <;> cases h
  rfl

theorem mapM_bulkArg_ok {items : List Frame} {args : List Bytes}
    (h : items.mapM bulkArg = .ok args) : items = args.map fun b => .bulk (some b) := by
  induction items generalizing args with
  | nil =>
    cases h
    rfl
  | cons item items ih =>
    rw [mapM_cons] at h
    obtain ⟨b, hb, h⟩ := bind_eq_ok h
    obtain ⟨bs, hbs, h⟩ := bind_eq_ok h
    cases h
    rw [bulkArg_ok hb, ih hbs, map_cons]

theorem parse_ok {frame : Frame} (h : parse printable f64 frame = .ok cmd) :
    ∃ v verb args, frame = frameOf (verb :: args) ∧ Verb.ofBytes verb = some v ∧
      v.parse printable f64 args = .ok cmd := by
  unfold parse at h
  split at h
  · rename_i item items
    obtain ⟨verb, hverb, h⟩ := bind_eq_ok h
    obtain ⟨args, hargs, h⟩ := bind_eq_ok h
    unfold ofArgs at h
    split at h
    · cases h
    · rename_i v hv
      refine ⟨v, verb, args, ?_, hv, h⟩
      rw [bulkArg_ok hverb, mapM_bulkArg_ok hargs, frameOf, map_cons]
  · cases h

theorem wellFormed_and_fits {frame : Frame} (h : parse printable f64 frame = .ok cmd)
    (hfloat : ∀ dmap key delta, cmd ≠ dmIncrByFloat dmap key delta) :
    cmd.WellFormed ∧ ∃ args, frame = frameOf args ∧ Fits (cmd.parts f64) args := by
  obtain ⟨v, verb, args, hframe, hverb, hparse⟩ := parse_ok h
  obtain ⟨hwf, ps, hps, hfits⟩ := verb_parse_ok hparse hfloat
  refine ⟨hwf, verb :: args, hframe, ?_⟩
  rw [hps]
  exact .cons (Verb.length_of_ofBytes hverb).le hfits

end Accepted

/-! ### Through the codec -/

section Forwarding

variable {c : RespCodec} {args ps : List Bytes}

theorem admissibleItems_bulks {depth : ℕ} :
    admissibleItems c depth (ps.map fun b => .bulk (some b)) = true ↔
      ∀ b ∈ ps, admissible c depth (.bulk (some b)) = true := by
  induction ps with
  | nil => simp [admissibleItems]
  | cons b ps ih =>
    rw [map_cons, admissibleItems, Bool.and_eq_true, ih, forall_mem_cons]

theorem admissible_of_fits (h : Fits ps args) (hargs : admissible c 0 (frameOf args) = true) :
    admissible c 0 (frameOf ps) = true := by
  unfold frameOf at hargs ⊢
  simp only [admissible, admissibleLen, length_map, Bool.and_eq_true, decide_eq_true_eq,
    admissibleItems_bulks] at hargs ⊢
  obtain ⟨⟨hdepth, hmax, hlen⟩, hbulks⟩ := hargs
  refine ⟨⟨hdepth, h.1.trans hmax, h.1.trans_lt hlen⟩, fun p hp => ?_⟩
  obtain ⟨a, ha, hle⟩ := h.2 p hp
  obtain ⟨⟨hdepth, hmax⟩, hlen⟩ := hbulks a ha
  exact ⟨⟨hdepth, hle.trans hmax⟩, hle.trans_lt hlen⟩

theorem encodeItems_bulks (version : ProtocolVersion) (ps : List Bytes) (dst : Bytes) :
    encodeItems f64 version (ps.map fun b => .bulk (some b)) dst =
      (.ok (), dst ++ ps.flatMap fun b =>
        '$'.toUInt8 :: asBytes (toString b.length) ++ crlf ++ (b ++ crlf)) := by
  induction ps generalizing dst with
  | nil => simp [encodeItems, extend]
  | cons b ps ih =>
    have hbulk : encodeFrame f64 version (.bulk (some b)) =
        andThen (header '$' b.length) (extend (b ++ crlf)) := by
      rw [encodeFrame, versioned, if_neg (by simp [Frame.requiresResp3])]
    rw [map_cons, encodeItems, hbulk]
    change encodeItems f64 version _ _ = _
    rw [ih, flatMap_cons]
    simp [append_assoc]

theorem encodeFrame_frameOf (version : ProtocolVersion) (ps : List Bytes) (dst : Bytes) :
    encodeFrame f64 version (frameOf ps) dst =
      (.ok (), dst ++ ('*'.toUInt8 :: asBytes (toString ps.length) ++ crlf ++
        ps.flatMap fun b => '$'.toUInt8 :: asBytes (toString b.length) ++ crlf ++
          (b ++ crlf))) := by
  rw [frameOf, encodeFrame, versioned, if_neg (by simp [Frame.requiresResp3]), length_map]
  change encodeItems f64 version _ _ = _
  rw [encodeItems_bulks, append_assoc]

theorem decode_frameOf (version : ProtocolVersion) (hadm : admissible c 0 (frameOf ps) = true)
    (dst : Bytes) :
    ∃ bytes, encodeFrame f64 version (frameOf ps) dst = (.ok (), dst ++ bytes) ∧
      ∀ rest, decode f64 c (bytes ++ rest) = .ok (some (frameOf ps, bytes.length)) := by
  have hsame :
      encodeFrame f64 version (frameOf ps) dst = encodeFrame f64 .resp2 (frameOf ps) dst := by
    rw [encodeFrame_frameOf, encodeFrame_frameOf]
  have hv : ProtocolVersion.resp2 = .resp3 → c.version = .resp3 := fun h => absurd h (by decide)
  obtain ⟨bytes, henc, hparse⟩ :=
    encodeFrame_emits f64 hv (frameOf ps) 0 dst hadm (by rw [encodeFrame_frameOf])
  exact ⟨bytes, hsame.trans henc, fun rest => decode_of_parseFrame f64 (hparse rest)⟩

/-- A forwarded command is the command received: `parse` reads back what `to_frame` prints of a
command it accepted, also through any codec whose limits the printed frame is within, as it is
if the frame received was. -/
theorem parse_toFrame_of_parse {frame : Frame} {cmd : Command}
    (h : parse printable f64 frame = .ok cmd)
    (hfloat : ∀ dmap key delta, cmd ≠ dmIncrByFloat dmap key delta) :
    parse printable f64 (cmd.toFrame f64) = .ok cmd ∧
      ∀ (c : RespCodec) (version : ProtocolVersion) (dst : Bytes),
        (admissible c 0 frame = true → admissible c 0 (cmd.toFrame f64) = true) ∧
        (admissible c 0 (cmd.toFrame f64) = true →
          ∃ bytes, encodeFrame f64 version (cmd.toFrame f64) dst = (.ok (), dst ++ bytes) ∧
            ∀ rest, ∃ received, decode f64 c (bytes ++ rest) = .ok (some (received, bytes.length)) ∧
              parse printable f64 received = .ok cmd) := by
  obtain ⟨hwf, args, rfl, hfits⟩ := wellFormed_and_fits h hfloat
  have hparse : parse printable f64 (cmd.toFrame f64) = .ok cmd := parse_parts hwf hfloat
  refine ⟨hparse, fun c version dst => ⟨admissible_of_fits hfits, fun hadm => ?_⟩⟩
  obtain ⟨bytes, henc, hdec⟩ := decode_frameOf version hadm dst
  exact ⟨bytes, henc, fun rest => ⟨_, hdec rest, hparse⟩⟩

theorem parse_toFrame_of_parse_reordered :
    let f64 : F64Text := ⟨fun _ => none, fun _ => ""⟩
    let cmd := dmPut (asBytes "m") (asBytes "k") (asBytes "v")
      { px := some 7, nx := true, timestamp := some (-5) }
    parse (fun _ => true) f64 (cmd.toFrame f64) = .ok cmd ∧
      ∀ dst, ∃ bytes, encodeFrame f64 .resp2 (cmd.toFrame f64) dst = (.ok (), dst ++ bytes) ∧
        ∀ rest, ∃ received, decode f64 {} (bytes ++ rest) = .ok (some (received, bytes.length)) ∧
          parse (fun _ => true) f64 received = .ok cmd := by
  intro f64 cmd
  let args := ["dm.Put", "m", "k", "v", "ts", "-5", "nX", "px", "+007"].map asBytes
  have hparse : parse (fun _ => true) f64 (frameOf args) = .ok cmd := rfl
  have h := parse_toFrame_of_parse hparse (by simp [cmd])
  refine ⟨h.1, fun dst => ?_⟩
  obtain ⟨hfits, hcodec⟩ := h.2 {} .resp2 dst
  exact hcodec (hfits (by decide +kernel))

theorem decode_arrayTooLarge (payload : Bytes) :
    decode f64 {} ('*'.toUInt8 :: asBytes (toString 1048577) ++ crlf ++ payload) =
      .error (.arrayTooLarge 1048577 1048576) := by
  have hheader : '*'.toUInt8 :: asBytes (toString 1048577) ++ crlf =
      [42, 49, 48, 52, 56, 53, 55, 55, 13, 10] := by decide +kernel
  rw [hheader]
  rfl

/-- A frame with more keys than the default limit of the decoder is parsed, but what is printed
of it is not decoded. -/
theorem parse_toFrame_of_parse_oversized :
    let f64 : F64Text := ⟨fun _ => none, fun _ => ""⟩
    let keys := List.replicate 1048575 (asBytes "k")
    let cmd := dmDel (asBytes "m") keys
    parse (fun _ => true) f64 (frameOf (asBytes "DM.DEL" :: asBytes "m" :: keys)) = .ok cmd ∧
      parse (fun _ => true) f64 (cmd.toFrame f64) = .ok cmd ∧
      ∃ bytes, encodeFrame f64 .resp2 (cmd.toFrame f64) [] = (.ok (), bytes) ∧
        decode f64 {} bytes = .error (.arrayTooLarge 1048577 1048576) := by
  intro f64 keys cmd
  have hlen : keys.length = 1048575 := List.length_replicate
  have hkeys : keys ≠ [] := by
    intro h
    rw [h] at hlen
    cases hlen
  have hparse : parse (fun _ => true) f64 (cmd.toFrame f64) = .ok cmd :=
    parse_parts hkeys (by simp [cmd])
  refine ⟨hparse, hparse, _, encodeFrame_frameOf _ _ _, ?_⟩
  have hparts : (cmd.parts f64).length = 1048577 := by
    rw [parts, List.length_cons, List.length_cons, hlen]
  rw [hparts, List.nil_append]
  exact decode_arrayTooLarge _

end Forwarding

end Command

end Kamino.Resp
