import Parlance.Json.Reader
import Parlance.Json.Writer
import Parlance.Proofs.Json.Lawful

/-! Reading JSON that was written. A value of texts, lists and objects is read as itself, though a control character
without a short escape is written as its number and read from that. -/
namespace Parlance.Json

open Reader

def rereadPiece (c : Char) : Piece :=
  if c.toNat < 0x20 ∧ c ∉ ['\x08', '\t', '\n', '\x0c', '\r'] then .inr c.toNat else .inl c

section Texts

theorem decodeUnit {unit : Nat} (low : unit < 0x20) (rest : List Piece) :
    decode (.inr unit :: rest) = (decode rest).map (Char.ofNat unit :: ·) := by
  have high : isHighSurrogate unit = false := by simp [isHighSurrogate]; omega
  have low' : isLowSurrogate unit = false := by simp [isLowSurrogate]; omega
  cases rest with
  | nil => simp [decode, high, low']
  | cons piece rest => cases piece <;> simp [decode, high, low']

theorem decodeReread (cs : List Char) : decode (cs.map rereadPiece) = some cs := by
  induction cs with
  | nil => rfl
  | cons c cs ih =>
    simp only [List.map_cons, rereadPiece]
    split
    · rename_i control
      rw [decodeUnit control.1, ih, Option.map_some, Char.ofNat_toNat]
    · simp only [decode, ih, Option.map_some]

theorem hexRead {n : Nat} (small : n < 16) : hexDigit (hexChar n) = some n := by
  have each : ∀ n < 16, hexDigit (hexChar n) = some n := by decide
  exact each n small

theorem unitRead {unit : Nat} (small : unit < 0x10000) :
    hexUnit (hexChar (unit / 4096 % 16)) (hexChar (unit / 256 % 16)) (hexChar (unit / 16 % 16))
      (hexChar (unit % 16)) = some unit := by
  have digit : ∀ n, hexDigit (hexChar (n % 16)) = some (n % 16) := fun n => hexRead (Nat.mod_lt n (by decide))
  simp only [hexUnit, digit, Option.bind_eq_bind, Option.bind_some, Option.some.injEq]
  omega

theorem shortRead {e c : Char} (short : shortEscape e = some c) (rest : List Char) :
    readPieces ('\\' :: e :: rest) = (readPieces rest).map fun found => (.inl c :: found.1, found.2) := by
  have notUnit : e ≠ 'u' := by
    rintro rfl
    contradiction
  rw [readPieces]
  · rw [short]
    cases readPieces rest <;> rfl
  · exact fun _ _ _ _ _ same => absurd same notUnit

theorem numberRead {unit : Nat} (small : unit < 0x10000) (rest : List Char) :
    readPieces (writeUnit unit ++ rest) = (readPieces rest).map fun found => (.inr unit :: found.1, found.2) := by
  simp only [writeUnit, List.cons_append, List.nil_append, readPieces, unitRead small]
  cases readPieces rest <;> rfl

theorem bareRead {c : Char} (high : ¬ c.toNat < 0x20) (quote : c ≠ '"') (slash : c ≠ '\\') (rest : List Char) :
    readPieces (c :: rest) = (readPieces rest).map fun found => (.inl c :: found.1, found.2) := by
  rw [readPieces]
  · rw [if_neg (by simp [slash, high])]
    cases readPieces rest <;> rfl
  · exact quote
  · exact fun _ _ _ _ _ same => absurd same slash
  · exact fun _ _ same => absurd same slash

theorem charWritten (c : Char) :
    (∃ e, writeChar c = ['\\', e] ∧ shortEscape e = some c ∧ rereadPiece c = .inl c) ∨
    (c.toNat < 0x20 ∧ writeChar c = writeUnit c.toNat ∧ rereadPiece c = .inr c.toNat) ∨
    ¬ c.toNat < 0x20 ∧ c ≠ '"' ∧ c ≠ '\\' ∧ writeChar c = [c] ∧ rereadPiece c = .inl c := by
  by_cases short : c ∈ ['"', '\\', '\x08', '\t', '\n', '\x0c', '\r']
  · simp only [List.mem_cons, List.not_mem_nil, or_false] at short
    refine .inl ?_
    rcases short with rfl | rfl | rfl | rfl | rfl | rfl | rfl <;> exact ⟨_, rfl, rfl, by decide⟩
  · simp only [List.mem_cons, List.not_mem_nil, or_false, not_or] at short
    by_cases control : c.toNat < 0x20
    · exact .inr (.inl ⟨control, by simp [writeChar, short, control], by simp [rereadPiece, short, control]⟩)
    · exact .inr (.inr ⟨control, short.1, short.2.1, by simp [writeChar, short, control],
        by simp [rereadPiece, control]⟩)

theorem charRead (c : Char) (rest : List Char) : readPieces (writeChar c ++ rest) =
    (readPieces rest).map fun found => (rereadPiece c :: found.1, found.2) := by
  rcases charWritten c with ⟨e, written, short, same⟩ | ⟨control, written, same⟩ |
    ⟨high, quote, slash, written, same⟩
  · rw [written, same]
    exact shortRead short rest
  · rw [written, same]
    exact numberRead (by omega) rest
  · rw [written, same]
    exact bareRead high quote slash rest

theorem piecesRead (cs rest : List Char) :
    readPieces (cs.flatMap writeChar ++ '"' :: rest) = some (cs.map rereadPiece, rest) := by
  induction cs with
  | nil => rfl
  | cons c cs ih =>
    rw [List.flatMap_cons, List.append_assoc, charRead, ih]
    rfl

theorem stringRead (s : String) (rest : List Char) :
    readString (s.toList.flatMap writeChar ++ '"' :: rest) = some (some s, rest) := by
  simp only [readString, piecesRead, decodeReread, Option.map_some, String.ofList_toList]

end Texts

section Values

variable {item : List Char → Option (Json × List Char)} {rounds : Nat}

theorem skipVisible {c : Char} (visible : isSpace c = false) (cs : List Char) : skipSpace (c :: cs) = c :: cs := by
  simp [skipSpace, visible]

theorem plainBegins {v : Json} (plain : v.Plain) :
    ∃ c cs, write v = c :: cs ∧ isSpace c = false ∧ c ≠ ']' := by
  cases plain with
  | text s =>
    rw [ofString, write, writeString]
    exact ⟨_, _, rfl, by decide, by decide⟩
  | @list vs each =>
    cases vs <;> rw [write] <;> exact ⟨_, _, rfl, by decide, by decide⟩
  | @named parts once each =>
    rw [named]
    cases parts <;> rw [List.map] <;> rw [write] <;> exact ⟨_, _, rfl, by decide, by decide⟩

theorem itemLast {v : Json} {cs rest : List Char} (read : item cs = some (v, ']' :: rest)) :
    readItems item (rounds + 1) cs = some ([v], rest) := by
  simp only [readItems, read]
  rfl

theorem itemMore {v : Json} {vs : List Json} {cs more rest : List Char} (read : item cs = some (v, ',' :: more))
    (others : readItems item rounds more = some (vs, rest)) :
    readItems item (rounds + 1) cs = some (v :: vs, rest) := by
  simp only [readItems, read, Option.bind_eq_bind, Option.bind_some, skipVisible (by decide : isSpace ',' = false),
    others]

theorem fieldLast {name : String} {v : Json} {after rest : List Char}
    (read : item after = some (v, '\x7d' :: rest)) :
    readFields item (rounds + 1) (writeString (some name) ++ ':' :: after) = some ([keyed (name, v)], rest) := by
  have key := stringRead name (':' :: after)
  simp only [writeString, List.cons_append, List.append_assoc, List.nil_append, readFields,
    skipVisible (by decide : isSpace '"' = false), key]
  simp only [Option.bind_eq_bind, Option.bind_some, skipVisible (by decide : isSpace ':' = false), read]
  rfl

theorem fieldMore {name : String} {v : Json} {fields : List (Option String × Json)} {after more rest : List Char}
    (read : item after = some (v, ',' :: more)) (others : readFields item rounds more = some (fields, rest)) :
    readFields item (rounds + 1) (writeString (some name) ++ ':' :: after) =
      some (keyed (name, v) :: fields, rest) := by
  have key := stringRead name (':' :: after)
  simp only [writeString, List.cons_append, List.append_assoc, List.nil_append, readFields,
    skipVisible (by decide : isSpace '"' = false), key]
  simp only [Option.bind_eq_bind, Option.bind_some, skipVisible (by decide : isSpace ':' = false),
    skipVisible (by decide : isSpace ',' = false), read, others, keyed]

theorem itemsRead {v : Json} {vs : List Json}
    (reads : ∀ w ∈ v :: vs, ∀ rest, item (write w ++ rest) = some (w, rest))
    (room : vs.length < rounds) (rest : List Char) :
    readItems item rounds (write v ++ (writeItems vs ++ rest)) = some (v :: vs, rest) := by
  induction vs generalizing v rounds with
  | nil =>
    obtain ⟨rounds, rfl⟩ := Nat.exists_eq_succ_of_ne_zero (Nat.ne_zero_of_lt room)
    exact itemLast (reads v List.mem_cons_self (']' :: rest))
  | cons w ws ih =>
    obtain ⟨here, later⟩ := List.forall_mem_cons.mp reads
    obtain ⟨rounds, rfl⟩ := Nat.exists_eq_succ_of_ne_zero (Nat.ne_zero_of_lt room)
    have others := ih later (Nat.lt_of_succ_lt_succ room)
    have written : writeItems (w :: ws) ++ rest = ',' :: (write w ++ (writeItems ws ++ rest)) := by
      rw [writeItems, List.cons_append, List.append_assoc]
    rw [written]
    exact itemMore (here _) others

theorem fieldsRead (name : String) {v : Json} {parts : List (String × Json)}
    (here : ∀ rest, item (write v ++ rest) = some (v, rest))
    (reads : ∀ part ∈ parts, ∀ rest, item (write part.2 ++ rest) = some (part.2, rest))
    (room : parts.length < rounds) (rest : List Char) :
    readFields item rounds
        (writeString (some name) ++ ':' :: (write v ++ (writeFields (parts.map keyed) ++ rest))) =
      some (((name, v) :: parts).map keyed, rest) := by
  induction parts generalizing name v rounds with
  | nil =>
    obtain ⟨rounds, rfl⟩ := Nat.exists_eq_succ_of_ne_zero (Nat.ne_zero_of_lt room)
    exact fieldLast (here ('\x7d' :: rest))
  | cons part parts ih =>
    obtain ⟨other, w⟩ := part
    obtain ⟨next, later⟩ := List.forall_mem_cons.mp reads
    obtain ⟨rounds, rfl⟩ := Nat.exists_eq_succ_of_ne_zero (Nat.ne_zero_of_lt room)
    have others := ih other next later (Nat.lt_of_succ_lt_succ room)
    have written : writeFields (((other, w) :: parts).map keyed) ++ rest =
        ',' :: (writeString (some other) ++ ':' :: (write w ++ (writeFields (parts.map keyed) ++ rest))) := by
      simp only [List.map_cons, keyed, writeFields, List.cons_append, List.append_assoc]
    rw [written]
    exact fieldMore (here _) others

section Nested

variable {depth : Nat} {cs rest : List Char}

theorem listRead {vs : List Json} (begun : ∀ more, skipSpace cs ≠ ']' :: more)
    (read : readItems (readValue rounds depth) rounds cs = some (vs, rest)) :
    readValue rounds (depth + 1) ('[' :: cs) = some (.list vs, rest) := by
  simp only [readValue, skipVisible (by decide : isSpace '[' = false), read]
  rfl

theorem objectRead {fields : List (Option String × Json)} (begun : ∀ more, skipSpace cs ≠ '\x7d' :: more)
    (read : readFields (readValue rounds depth) rounds cs = some (fields, rest)) :
    readValue rounds (depth + 1) ('\x7b' :: cs) = some (.object fields, rest) := by
  simp only [readValue, skipVisible (by decide : isSpace '\x7b' = false), read]
  rfl

theorem listWritten {vs : List Json} (each : ∀ v ∈ vs, v.Plain)
    (reads : ∀ v ∈ vs, ∀ rest, readValue rounds depth (write v ++ rest) = some (v, rest))
    (room : vs.length ≤ rounds) (rest : List Char) :
    readValue rounds (depth + 1) (write (.list vs) ++ rest) = some (.list vs, rest) := by
  cases vs with
  | nil =>
    rw [write]
    rfl
  | cons v vs =>
    obtain ⟨c, cs, begins, visible, other⟩ := plainBegins (each v List.mem_cons_self)
    have begun : ∀ more, skipSpace (write v ++ (writeItems vs ++ rest)) ≠ ']' :: more := by
      intro more same
      rw [begins, List.cons_append, skipVisible visible] at same
      exact other (List.cons.inj same).1
    rw [write, List.cons_append, List.append_assoc]
    exact listRead begun (itemsRead reads room rest)

theorem namedWritten {parts : List (String × Json)}
    (reads : ∀ part ∈ parts, ∀ rest, readValue rounds depth (write part.2 ++ rest) = some (part.2, rest))
    (room : parts.length ≤ rounds) (rest : List Char) :
    readValue rounds (depth + 1) (write (.named parts) ++ rest) = some (.named parts, rest) := by
  cases parts with
  | nil => rfl
  | cons part parts =>
    obtain ⟨name, v⟩ := part
    obtain ⟨here, later⟩ := List.forall_mem_cons.mp reads
    have begun : ∀ more,
        skipSpace (writeString (some name) ++ ':' :: (write v ++ (writeFields (parts.map keyed) ++ rest))) ≠
          '\x7d' :: more := by
      intro more same
      rw [writeString, List.cons_append, skipVisible (by decide)] at same
      exact absurd (List.cons.inj same).1 (by decide)
    have written : write (.named ((name, v) :: parts)) ++ rest = '\x7b' ::
        (writeString (some name) ++ ':' :: (write v ++ (writeFields (parts.map keyed) ++ rest))) := by
      simp only [named, List.map_cons, keyed, write, List.cons_append, List.append_assoc]
    rw [written]
    exact objectRead begun (fieldsRead name here later room rest)

end Nested

section Lengths

theorem itemsLength (vs : List Json) : vs.length < (writeItems vs).length ∧
    ∀ v ∈ vs, (write v).length < (writeItems vs).length := by
  induction vs with
  | nil => simp [writeItems]
  | cons v vs ih =>
    simp only [writeItems, List.length_cons, List.length_append, List.mem_cons, forall_eq_or_imp]
    refine ⟨by omega, by omega, fun w member => ?_⟩
    have inside := ih.2 w member
    omega

theorem fieldsLength (parts : List (String × Json)) : parts.length < (writeFields (parts.map keyed)).length ∧
    ∀ part ∈ parts, (write part.2).length < (writeFields (parts.map keyed)).length := by
  induction parts with
  | nil => simp [writeFields]
  | cons part parts ih =>
    simp only [List.map_cons, keyed, writeFields, List.length_cons, List.length_append, List.mem_cons,
      forall_eq_or_imp]
    refine ⟨by omega, by omega, fun other member => ?_⟩
    have inside := ih.2 other member
    omega

theorem listLength (vs : List Json) : vs.length < (write (.list vs)).length ∧
    ∀ v ∈ vs, (write v).length < (write (.list vs)).length := by
  cases vs with
  | nil => simp [write]
  | cons v vs =>
    have same : (write (.list (v :: vs))).length = (writeItems (v :: vs)).length := by
      rw [write, writeItems, List.length_cons, List.length_cons]
    rw [same]
    exact itemsLength (v :: vs)

theorem namedLength (parts : List (String × Json)) : parts.length < (write (.named parts)).length ∧
    ∀ part ∈ parts, (write part.2).length < (write (.named parts)).length := by
  cases parts with
  | nil => simp [named, write]
  | cons part parts =>
    have same : (write (.named (part :: parts))).length = (writeFields ((part :: parts).map keyed)).length := by
      simp only [named, List.map_cons, keyed, write, writeFields, List.length_cons]
    rw [same]
    exact fieldsLength (part :: parts)

end Lengths

theorem valueRead {v : Json} (plain : v.Plain) {depth : Nat} (wide : (write v).length ≤ rounds)
    (deep : (write v).length ≤ depth) (rest : List Char) :
    readValue rounds depth (write v ++ rest) = some (v, rest) := by
  -- Both bounds are on the length of the text, so what a list or an object leaves of them is enough for its parts.
  induction plain generalizing depth rest with
  | text s =>
    rw [ofString, write, writeString] at deep ⊢
    obtain ⟨depth, rfl⟩ := Nat.exists_eq_succ_of_ne_zero (Nat.ne_zero_of_lt deep)
    simp only [List.cons_append, List.append_assoc, List.nil_append, readValue,
      skipVisible (by decide : isSpace '"' = false), stringRead, Option.map_some]
  | @list vs each ih =>
    obtain ⟨room, parts⟩ := listLength vs
    obtain ⟨depth, rfl⟩ := Nat.exists_eq_succ_of_ne_zero (Nat.ne_zero_of_lt (Nat.lt_of_lt_of_le room deep))
    refine listWritten each (fun v member rest => ?_) (by omega) rest
    have short := parts v member
    exact ih v member (by omega) (by omega) rest
  | @named fields once each ih =>
    obtain ⟨room, parts⟩ := namedLength fields
    obtain ⟨depth, rfl⟩ := Nat.exists_eq_succ_of_ne_zero (Nat.ne_zero_of_lt (Nat.lt_of_lt_of_le room deep))
    refine namedWritten (fun field member rest => ?_) (by omega) rest
    have short := parts field member
    exact ih field member (by omega) (by omega) rest

end Values

theorem readRender {v : Json} (plain : v.Plain) : Json.read v.render = some v := by
  have whole := valueRead plain (Nat.le_refl _) (Nat.le_succ _) []
  rw [List.append_nil] at whole
  unfold Json.read render
  simp only [String.toList_ofList, whole]
  rfl

end Parlance.Json
