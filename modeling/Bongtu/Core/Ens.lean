import Bongtu.Core.Text
import Bongtu.Outcome
import Bongtu.Utf8

namespace Bongtu.Core.Ens

open Outcome

-- JavaScript text by code points: half of a surrogate pair is one too.
inductive CodePoint where
  | scalar (c : Char)
  | surrogate (unit : Fin 2048)
deriving DecidableEq

abbrev Name := List CodePoint

def dot : CodePoint := .scalar '.'

def CodePoint.toScalar : CodePoint → Char
  | .scalar c => c
  | .surrogate _ => Utf8.replacement

-- `TextEncoder.encode`
def encodeText (text : Name) : Bytes := Utf8.encode (text.map CodePoint.toScalar)

-- `TextDecoder.decode`
def decodeText (bytes : Bytes) : Name := (Utf8.stripMark (Utf8.decode bytes)).map .scalar

inductive DnsError where
  | labelLength (length : ℕ) (name : Name)
  | truncatedWireName
  | labelOutOfRange (length : ℕ)
  | nameTooDeep
deriving DecidableEq

-- `name.replace(/\.$/, "")`
def trimDot (name : Name) : Name := if name.getLast? = some dot then name.dropLast else name

def encodeLabel (name label : Name) : Except DnsError Bytes :=
  let bytes := encodeText label
  if bytes.length = 0 ∨ bytes.length > 63 then .error (.labelLength bytes.length name)
  else .ok (UInt8.ofNat bytes.length :: bytes)

def dnsEncodeName (name : Name) : Except DnsError Bytes :=
  let trimmed := trimDot name
  if trimmed = [] then .ok [0]
  else do
    let parts ← (trimmed.splitOn dot).mapM (encodeLabel name)
    return parts.flatten ++ [0]

def decodeLabels : ℕ → Bytes → List Name → Except DnsError Name
  | 0, _, _ => .error .nameTooDeep
  | _ + 1, [], _ => .error .truncatedWireName
  | steps + 1, len :: rest, labels =>
    if len.toNat = 0 then .ok ([dot].intercalate labels)
    else if len.toNat > 63 then .error (.labelOutOfRange len.toNat)
    else decodeLabels steps (rest.drop len.toNat) (labels ++ [decodeText (rest.take len.toNat)])

def dnsDecodeName (wire : Bytes) : Except DnsError Name := decodeLabels 128 wire []

def namehash (keccak256 : Bytes → Bytes) (name : Name) : Bytes :=
  (((trimDot name).splitOn dot).filter (· ≠ [])).foldr (fun label acc => keccak256 (acc ++ keccak256 (encodeText label)))
    (List.replicate 32 0)

section Wire

-- The labels of a wire name as it has them.
def wireLabels : ℕ → Bytes → Option (List Bytes)
  | 0, _ => none
  | _ + 1, [] => none
  | steps + 1, len :: rest =>
    if len.toNat = 0 then some []
    else if len.toNat > 63 then none
    else (wireLabels steps (rest.drop len.toNat)).map (rest.take len.toNat :: ·)

def frame (labels : List Bytes) : Bytes := labels.flatMap (fun label => UInt8.ofNat label.length :: label) ++ [0]

def upToTerminator (wire : Bytes) : Bytes := ((wireLabels 128 wire).map frame).getD wire

def hashFold (keccak256 : Bytes → Bytes) (labels : List Bytes) : Bytes :=
  labels.foldr (fun label acc => keccak256 (acc ++ keccak256 label)) (List.replicate 32 0)

variable {steps : ℕ} {wire rest : Bytes} {labels : List Bytes} {name : Name}

theorem decodeLabels_ok : ∀ {steps : ℕ} {wire : Bytes} {before : List Name}, decodeLabels steps wire before = .ok name ↔
    ∃ labels, wireLabels steps wire = some labels ∧ name = [dot].intercalate (before ++ labels.map decodeText) := by
  intro steps
  induction steps with
  | zero => simp [decodeLabels, wireLabels]
  | succ steps ih =>
    intro wire before
    cases wire with
    | nil => simp [decodeLabels, wireLabels]
    | cons len rest =>
      rw [decodeLabels, wireLabels]
      split
      · simp [eq_comm]
      · split
        · simp
        · rw [ih]
          simp only [Option.map_eq_some_iff]
          constructor
          · rintro ⟨labels, hlabels, rfl⟩
            exact ⟨_, ⟨labels, hlabels, rfl⟩, by simp⟩
          · rintro ⟨_, ⟨labels, hlabels, rfl⟩, rfl⟩
            exact ⟨labels, hlabels, by simp⟩

-- A name as `dnsDecodeName` reads it.
theorem dnsDecodeName_ok : dnsDecodeName wire = .ok name ↔
    ∃ labels, wireLabels 128 wire = some labels ∧ name = [dot].intercalate (labels.map decodeText) :=
  decodeLabels_ok

theorem wireLabels_frame : ∀ {steps : ℕ} {labels : List Bytes}, (∀ l ∈ labels, l.length ≠ 0 ∧ l.length ≤ 63) →
    wireLabels steps (frame labels ++ rest) = if labels.length < steps then some labels else none := by
  intro steps
  induction steps with
  | zero => simp [wireLabels]
  | succ steps ih =>
    intro labels h
    cases labels with
    | nil => simp [frame, wireLabels]
    | cons l labels =>
      obtain ⟨⟨hne, hle⟩, htail⟩ := List.forall_mem_cons.1 h
      have hlen : (UInt8.ofNat l.length).toNat = l.length := UInt8.toNat_ofNat_of_lt' (hle.trans_lt (by decide))
      have hsplit : frame (l :: labels) ++ rest = UInt8.ofNat l.length :: (l ++ (frame labels ++ rest)) := by
        simp [frame]
      rw [hsplit, wireLabels, hlen, if_neg hne, if_neg (by omega), List.drop_left, List.take_left, ih htail,
        List.length_cons]
      split <;> split <;> first | rfl | omega

theorem wireLabels_spec : ∀ {steps : ℕ} {wire : Bytes} {labels : List Bytes}, wireLabels steps wire = some labels →
    labels.length < steps ∧ (∀ l ∈ labels, l.length ≠ 0 ∧ l.length ≤ 63) ∧ ∃ rest, wire = frame labels ++ rest := by
  intro steps
  induction steps with
  | zero => simp [wireLabels]
  | succ steps ih =>
    intro wire labels h
    cases wire with
    | nil => simp [wireLabels] at h
    | cons len rest =>
      rw [wireLabels] at h
      split at h
      · next hzero =>
        obtain rfl : [] = labels := Option.some.inj h
        obtain rfl : len = 0 := UInt8.toNat_inj.1 hzero
        exact ⟨by simp, by simp, rest, rfl⟩
      · next hne =>
        split at h
        · cases h
        · next hle =>
          obtain ⟨labels, hlabels, rfl⟩ := Option.map_eq_some_iff.1 h
          obtain ⟨hcount, hsize, after, hafter⟩ := ih hlabels
          have hfull : len.toNat ≤ rest.length := by
            by_contra hshort
            rw [List.drop_eq_nil_of_le (by omega)] at hafter
            simp [frame] at hafter
          have hlen : (rest.take len.toNat).length = len.toNat := List.length_take_of_le hfull
          refine ⟨by simpa using hcount, List.forall_mem_cons.2 ⟨by omega, hsize⟩, after, ?_⟩
          have hrest : rest = rest.take len.toNat ++ (frame labels ++ after) := by
            rw [← hafter, List.take_append_drop]
          conv_lhs => rw [hrest]
          simp [frame, hlen]

theorem upToTerminator_eq (h : wireLabels 128 wire = some labels) : upToTerminator wire = frame labels := by
  rw [upToTerminator, h]
  rfl

theorem frame_injective {labels labels' : List Bytes} (h : ∀ l ∈ labels, l.length ≠ 0 ∧ l.length ≤ 63)
    (h' : ∀ l ∈ labels', l.length ≠ 0 ∧ l.length ≤ 63) (heq : frame labels = frame labels') : labels = labels' := by
  have hread : wireLabels (labels.length + labels'.length + 1) (frame labels ++ []) = _ := wireLabels_frame h
  have hread' : wireLabels (labels.length + labels'.length + 1) (frame labels' ++ []) = _ := wireLabels_frame h'
  rw [if_pos (by omega)] at hread hread'
  rw [heq, hread'] at hread
  exact (Option.some.inj hread).symm

end Wire

section Names

variable {α : Type} {sep : α} {pieces : List (List α)}

theorem not_mem_of_mem_splitOn [DecidableEq α] {xs piece : List α} (h : piece ∈ xs.splitOn sep) : sep ∉ piece := by
  induction xs generalizing piece with
  | nil =>
    rw [List.splitOn_nil, List.mem_singleton] at h
    simp [h]
  | cons x xs ih =>
    rw [List.splitOn_cons_eq_if_modifyHead] at h
    split at h
    · rcases List.mem_cons.1 h with rfl | h
      · simp
      · exact ih h
    · next hne =>
      obtain ⟨head, tail, hsplit⟩ := List.exists_cons_of_ne_nil (List.splitOn_ne_nil sep xs)
      rw [hsplit] at h ih
      rw [List.modifyHead_cons] at h
      rcases List.mem_cons.1 h with rfl | h
      · have hhead := ih List.mem_cons_self
        simp only [List.mem_cons, not_or]
        exact ⟨fun heq => hne (by simp [heq]), hhead⟩
      · exact ih (List.mem_cons_of_mem _ h)

theorem length_intercalate_le (sep : α) {f : List α → List α} (hle : ∀ l ∈ pieces, (f l).length ≤ l.length) :
    ([sep].intercalate (pieces.map f)).length ≤ ([sep].intercalate pieces).length := by
  induction pieces with
  | nil => simp
  | cons l pieces ih =>
    obtain ⟨hl, hpieces⟩ := List.forall_mem_cons.1 hle
    have ih := ih hpieces
    cases pieces with
    | nil => simpa using hl
    | cons l' pieces =>
      rw [List.map_cons, List.map_cons, List.intercalate_cons_cons, List.intercalate_cons_cons]
      simp only [List.length_append]
      exact Nat.add_le_add (Nat.add_le_add hl le_rfl) ih

-- Pieces that grow no longer and join to the same text are the same.
theorem eq_of_intercalate_map {f : List α → List α} (hle : ∀ l ∈ pieces, (f l).length ≤ l.length)
    (heq : [sep].intercalate (pieces.map f) = [sep].intercalate pieces) : ∀ l ∈ pieces, f l = l := by
  induction pieces with
  | nil => simp
  | cons l pieces ih =>
    obtain ⟨hl, hpieces⟩ := List.forall_mem_cons.1 hle
    cases pieces with
    | nil => simpa using heq
    | cons l' pieces =>
      have hrest := length_intercalate_le sep hpieces
      rw [List.map_cons, List.map_cons, List.intercalate_cons_cons, List.intercalate_cons_cons, ← List.map_cons] at heq
      have hlen := congrArg List.length heq
      simp only [List.length_append] at hlen
      have hfirst := List.append_inj heq (by simp only [List.length_append]; omega)
      have hhead := List.append_inj_left' hfirst.1 rfl
      exact List.forall_mem_cons.2 ⟨hhead, ih hpieces hfirst.2⟩

end Names

section Labels

variable {label : Name} {bytes : Bytes}

-- What `dnsDecodeName` makes of the bytes of a label.
def reread (label : Name) : Name := decodeText (encodeText label)

theorem reread_eq (label : Name) : reread label = (Utf8.stripMark (label.map CodePoint.toScalar)).map .scalar := by
  rw [reread, decodeText, encodeText, Utf8.decode_encode]

def WellFormed (label : Name) : Prop :=
  (∀ unit, CodePoint.surrogate unit ∉ label) ∧ label.head? ≠ some (.scalar Utf8.byteOrderMark)

theorem length_reread_le (label : Name) : (reread label).length ≤ label.length := by
  rw [reread_eq, List.length_map]
  cases label with
  | nil => rfl
  | cons c label =>
    rw [List.map_cons, Utf8.stripMark]
    split <;> simp

theorem map_scalar {label : Name} (h : ∀ unit, CodePoint.surrogate unit ∉ label) :
    (label.map CodePoint.toScalar).map CodePoint.scalar = label := by
  rw [List.map_map]
  refine (List.map_congr_left fun c hc => ?_).trans (List.map_id _)
  cases c with
  | scalar c => rfl
  | surrogate unit => exact absurd hc (h unit)

theorem reread_eq_self : reread label = label ↔ WellFormed label := by
  constructor
  · intro h
    have hscalar : ∀ unit, CodePoint.surrogate unit ∉ label := by
      intro unit hmem
      rw [← h, reread_eq] at hmem
      simp at hmem
    refine ⟨hscalar, fun hmark => ?_⟩
    cases label with
    | nil => simp at hmark
    | cons c label =>
      obtain rfl : c = .scalar Utf8.byteOrderMark := by simpa using hmark
      have hlen := congrArg List.length h
      rw [reread_eq, List.map_cons, Utf8.stripMark,
        if_pos (show (CodePoint.scalar Utf8.byteOrderMark).toScalar = Utf8.byteOrderMark from rfl)] at hlen
      simp at hlen
  · rintro ⟨hscalar, hmark⟩
    have hkeep : Utf8.stripMark (label.map CodePoint.toScalar) = label.map CodePoint.toScalar := by
      cases label with
      | nil => rfl
      | cons c label =>
        rw [List.map_cons, Utf8.stripMark, if_neg]
        intro heq
        cases c with
        | scalar c => exact hmark (by rw [List.head?_cons, show c = Utf8.byteOrderMark from heq])
        | surrogate unit => exact hscalar unit List.mem_cons_self
    rw [reread_eq, hkeep, map_scalar hscalar]

-- UTF-8 that names no dot and starts with no byte order mark.
def Canonical (bytes : Bytes) : Prop :=
  ∃ cs, bytes = Utf8.encode cs ∧ '.' ∉ cs ∧ cs.head? ≠ some Utf8.byteOrderMark

theorem Canonical.decodeText (h : Canonical bytes) : encodeText (decodeText bytes) = bytes ∧ dot ∉ decodeText bytes := by
  obtain ⟨cs, rfl, hdot, hmark⟩ := h
  have hkeep : Utf8.stripMark cs = cs := by
    cases cs with
    | nil => rfl
    | cons c cs => rw [Utf8.stripMark, if_neg fun h => hmark (by rw [h]; rfl)]
  rw [Ens.decodeText, Utf8.decode_encode, hkeep]
  refine ⟨?_, ?_⟩
  · rw [encodeText, List.map_map]
    exact congrArg Utf8.encode (List.map_id cs)
  · simpa [dot] using hdot

theorem canonical_encodeText (h : WellFormed label) (hdot : dot ∉ label) : Canonical (encodeText label) := by
  refine ⟨label.map CodePoint.toScalar, rfl, ?_, ?_⟩
  · intro hmem
    obtain ⟨c, hc, heq⟩ := List.mem_map.1 hmem
    cases c with
    | scalar c => exact hdot (by rw [dot, ← show c = '.' from heq]; exact hc)
    | surrogate unit => exact h.1 unit hc
  · intro hmark
    cases label with
    | nil => simp at hmark
    | cons c label =>
      have hhead : c.toScalar = Utf8.byteOrderMark := by simpa using hmark
      cases c with
      | scalar c => exact h.2 (by rw [List.head?_cons, show c = Utf8.byteOrderMark from hhead])
      | surrogate unit => exact h.1 unit List.mem_cons_self

end Labels

section Codec

variable {name : Name} {wire : Bytes} {labels : List Bytes}

def Fits (bytes : Bytes) : Prop := bytes.length ≠ 0 ∧ bytes.length ≤ 63

theorem mapM_encodeLabel {labels : List Name} {parts : List Bytes} :
    labels.mapM (encodeLabel name) = .ok parts ↔
      (∀ l ∈ labels, Fits (encodeText l)) ∧
        parts = labels.map fun l => UInt8.ofNat (encodeText l).length :: encodeText l := by
  induction labels generalizing parts with
  | nil => simp [Pure.pure, Except.pure, eq_comm]
  | cons l labels ih =>
    have hone : ∀ part, encodeLabel name l = .ok part ↔
        Fits (encodeText l) ∧ part = UInt8.ofNat (encodeText l).length :: encodeText l := by
      intro part
      rw [encodeLabel, Fits]
      split
      · simp only [reduceCtorEq, false_iff]
        omega
      · rw [Except.ok.injEq, eq_comm]
        exact ⟨fun h => ⟨by omega, h⟩, And.right⟩
    rw [List.mapM_cons, bind_ok]
    simp only [bind_ok, hone, ih, List.forall_mem_cons, List.map_cons]
    constructor
    · rintro ⟨_, ⟨hfits, rfl⟩, _, ⟨hall, rfl⟩, h⟩
      exact ⟨⟨hfits, hall⟩, (Except.ok.inj h).symm⟩
    · rintro ⟨⟨hfits, hall⟩, rfl⟩
      exact ⟨_, ⟨hfits, rfl⟩, _, ⟨hall, rfl⟩, rfl⟩

theorem dnsEncodeName_empty (h : trimDot name = []) : dnsEncodeName name = .ok [0] := if_pos h

theorem dnsEncodeName_ok (h : trimDot name ≠ []) : dnsEncodeName name = .ok wire ↔
    (∀ l ∈ (trimDot name).splitOn dot, Fits (encodeText l)) ∧
      wire = frame (((trimDot name).splitOn dot).map encodeText) := by
  have hframe : ∀ labels : List Name, frame (labels.map encodeText) =
      (labels.map fun l => UInt8.ofNat (encodeText l).length :: encodeText l).flatten ++ [0] := by
    intro labels
    rw [frame, List.flatMap_map, List.flatMap]
  rw [dnsEncodeName, if_neg h, bind_ok, hframe]
  simp only [mapM_encodeLabel]
  constructor
  · rintro ⟨_, ⟨hall, rfl⟩, h⟩
    exact ⟨hall, (Except.ok.inj h).symm⟩
  · rintro ⟨hall, rfl⟩
    exact ⟨_, ⟨hall, rfl⟩, rfl⟩

-- The labels of a name, none for the empty one.
def nameLabels (name : Name) : List Name := if trimDot name = [] then [] else (trimDot name).splitOn dot

theorem intercalate_nameLabels (name : Name) : [dot].intercalate (nameLabels name) = trimDot name := by
  rw [nameLabels]
  split
  · next h => rw [h, List.intercalate_nil]
  · exact List.intercalate_splitOn dot

theorem dnsEncodeName_iff : dnsEncodeName name = .ok wire ↔
    (∀ l ∈ nameLabels name, Fits (encodeText l)) ∧ wire = frame ((nameLabels name).map encodeText) := by
  rw [nameLabels]
  split
  · next h =>
    rw [dnsEncodeName_empty h, Except.ok.injEq]
    simp [frame, eq_comm]
  · next h => exact dnsEncodeName_ok h

theorem not_mem_nameLabels {l : Name} (h : l ∈ nameLabels name) : dot ∉ l := by
  rw [nameLabels] at h
  split at h
  · simp at h
  · exact not_mem_of_mem_splitOn h

theorem getLast_intercalate {labels : List Name} (hlabels : labels ≠ []) (hne : ∀ l ∈ labels, l ≠ [])
    (hdot : ∀ l ∈ labels, dot ∉ l) : ∃ c, ([dot].intercalate labels).getLast? = some c ∧ c ≠ dot := by
  induction labels with
  | nil => exact absurd rfl hlabels
  | cons l labels ih =>
    obtain ⟨hl, hrest⟩ := List.forall_mem_cons.1 hne
    obtain ⟨hldot, hrestdot⟩ := List.forall_mem_cons.1 hdot
    cases labels with
    | nil =>
      rw [List.intercalate_singleton, List.getLast?_eq_getLast_of_ne_nil hl]
      exact ⟨_, rfl, fun h => hldot (h ▸ List.getLast_mem hl)⟩
    | cons l' labels =>
      obtain ⟨c, hc, hcdot⟩ := ih (by simp) hrest hrestdot
      rw [List.intercalate_cons_cons]
      exact ⟨c, by rw [List.getLast?_append, hc, Option.some_or], hcdot⟩

theorem nameLabels_intercalate {labels : List Name} (hne : ∀ l ∈ labels, l ≠ []) (hdot : ∀ l ∈ labels, dot ∉ l) :
    nameLabels ([dot].intercalate labels) = labels := by
  rcases List.eq_nil_or_concat labels with rfl | ⟨_, _, hlabels⟩
  · rfl
  · have hlabels : labels ≠ [] := by simp [hlabels]
    obtain ⟨c, hc, hcdot⟩ := getLast_intercalate hlabels hne hdot
    have htrim : trimDot ([dot].intercalate labels) = [dot].intercalate labels := by
      rw [trimDot, if_neg]
      rw [hc, Option.some.injEq]
      exact hcdot
    have hnonempty : [dot].intercalate labels ≠ [] := fun h => by simp [h] at hc
    rw [nameLabels, htrim, if_neg hnonempty, List.splitOn_intercalate dot hdot hlabels]

theorem eq_of_length_trimDot (h : name.length ≤ (trimDot name).length) : trimDot name = name := by
  rw [trimDot] at h ⊢
  split
  · next hdot =>
    rw [if_pos hdot, List.length_dropLast] at h
    cases name with
    | nil => rfl
    | cons c name => simp at h
  · rfl

theorem dnsDecodeName_frame (h : ∀ l ∈ labels, Fits l) : dnsDecodeName (frame labels) = .ok name ↔
    labels.length ≤ 127 ∧ name = [dot].intercalate (labels.map decodeText) := by
  have hread : wireLabels 128 (frame labels ++ []) = _ := wireLabels_frame h
  rw [List.append_nil] at hread
  rw [dnsDecodeName_ok, hread]
  constructor
  · rintro ⟨labels', hlabels, rfl⟩
    split at hlabels
    · obtain rfl := Option.some.inj hlabels
      exact ⟨by omega, rfl⟩
    · cases hlabels
  · rintro ⟨hcount, rfl⟩
    exact ⟨labels, if_pos (by omega), rfl⟩

-- What the decoder refuses or alters: too many labels, half surrogate pairs, byte order marks.
theorem decode_encode_iff (hencode : dnsEncodeName name = .ok wire) : dnsDecodeName wire = .ok (trimDot name) ↔
    (nameLabels name).length ≤ 127 ∧ ∀ l ∈ nameLabels name, WellFormed l := by
  obtain ⟨hfits, rfl⟩ := dnsEncodeName_iff.1 hencode
  rw [dnsDecodeName_frame (List.forall_mem_map.2 hfits), List.length_map, List.map_map]
  refine and_congr_right fun _ => ?_
  have hjoin := intercalate_nameLabels name
  have hsame : [dot].intercalate ((nameLabels name).map (decodeText ∘ encodeText)) =
      [dot].intercalate ((nameLabels name).map reread) := rfl
  rw [hsame, ← hjoin]
  constructor
  · intro h l hl
    rw [← reread_eq_self]
    exact eq_of_intercalate_map (fun l _ => length_reread_le l) h.symm l hl
  · intro h
    have hkept : (nameLabels name).map reread = nameLabels name :=
      (List.map_congr_left fun l hl => reread_eq_self.2 (h l hl)).trans (List.map_id _)
    rw [hkept]

theorem encode_decode_iff (hwire : wireLabels 128 wire = some labels)
    (hname : name = [dot].intercalate (labels.map decodeText)) :
    dnsEncodeName name = .ok (frame labels) ↔ ∀ l ∈ labels, Canonical l := by
  obtain ⟨-, hfits, -⟩ := wireLabels_spec hwire
  constructor
  · intro hencode
    obtain ⟨hpieces, hframe⟩ := dnsEncodeName_iff.1 hencode
    obtain rfl := frame_injective hfits (List.forall_mem_map.2 hpieces) hframe
    have hjoin := intercalate_nameLabels name
    have hreread : name = [dot].intercalate ((nameLabels name).map reread) := by
      conv_lhs => rw [hname, List.map_map]
      rfl
    have hle := length_intercalate_le dot fun l (_ : l ∈ nameLabels name) => length_reread_le l
    rw [← hreread, hjoin] at hle
    rw [eq_of_length_trimDot hle] at hjoin
    have hkept := eq_of_intercalate_map (fun l (_ : l ∈ nameLabels name) => length_reread_le l)
      (hreread.symm.trans hjoin.symm)
    intro bytes hbytes
    obtain ⟨l, hl, rfl⟩ := List.mem_map.1 hbytes
    exact canonical_encodeText (reread_eq_self.1 (hkept l hl)) (not_mem_nameLabels hl)
  · intro hcanonical
    have hne : ∀ l ∈ labels.map decodeText, l ≠ [] := by
      intro l hl
      obtain ⟨bytes, hbytes, rfl⟩ := List.mem_map.1 hl
      intro hempty
      have hencode := (hcanonical bytes hbytes).decodeText.1
      rw [hempty] at hencode
      exact (hfits bytes hbytes).1 (by rw [← hencode]; rfl)
    have hdot : ∀ l ∈ labels.map decodeText, dot ∉ l := by
      intro l hl
      obtain ⟨bytes, hbytes, rfl⟩ := List.mem_map.1 hl
      exact (hcanonical bytes hbytes).decodeText.2
    have hback : (labels.map decodeText).map encodeText = labels := by
      rw [List.map_map]
      exact (List.map_congr_left fun bytes hbytes => (hcanonical bytes hbytes).decodeText.1).trans (List.map_id _)
    rw [dnsEncodeName_iff, hname, nameLabels_intercalate hne hdot, hback]
    refine ⟨fun l hl => ?_, rfl⟩
    obtain ⟨bytes, hbytes, rfl⟩ := List.mem_map.1 hl
    rw [(hcanonical bytes hbytes).decodeText.1]
    exact hfits bytes hbytes

theorem namehash_eq (keccak256 : Bytes → Bytes) (h : ∀ l ∈ nameLabels name, Fits (encodeText l)) :
    namehash keccak256 name = hashFold keccak256 ((nameLabels name).map encodeText) := by
  have hkept : ((trimDot name).splitOn dot).filter (· ≠ []) = nameLabels name := by
    rw [nameLabels] at h ⊢
    split
    · next hempty => simp [hempty]
    · next hne =>
      rw [if_neg hne] at h
      refine List.filter_eq_self.2 fun l hl => ?_
      simp only [ne_eq, decide_not, Bool.not_eq_eq_eq_not, Bool.not_true, decide_eq_false_iff_not]
      rintro rfl
      exact (h [] hl).1 rfl
  rw [namehash, hkept, hashFold, List.foldr_map]

-- Empty where the wire is refused.
def labelsOf (wire : Bytes) : List Bytes := (wireLabels 128 wire).getD []

theorem reencode_iff (h : dnsDecodeName wire = .ok name) :
    dnsEncodeName name = .ok (upToTerminator wire) ↔ ∀ l ∈ labelsOf wire, Canonical l := by
  obtain ⟨labels, hlabels, hname⟩ := dnsDecodeName_ok.1 h
  rw [upToTerminator_eq hlabels, labelsOf, hlabels, Option.getD_some]
  exact encode_decode_iff hlabels hname

theorem namehash_of_canonical (keccak256 : Bytes → Bytes) (h : dnsDecodeName wire = .ok name)
    (hcanonical : ∀ l ∈ labelsOf wire, Canonical l) : namehash keccak256 name = hashFold keccak256 (labelsOf wire) := by
  obtain ⟨labels, hlabels, hname⟩ := dnsDecodeName_ok.1 h
  have hencode := (reencode_iff h).2 hcanonical
  rw [upToTerminator_eq hlabels] at hencode
  obtain ⟨hpieces, hframe⟩ := dnsEncodeName_iff.1 hencode
  rw [labelsOf, hlabels, Option.getD_some, namehash_eq keccak256 hpieces]
  exact congrArg _ (frame_injective (wireLabels_spec hlabels).2.1 (List.forall_mem_map.2 hpieces) hframe).symm

end Codec

theorem dns_codec_exact (keccak256 : Bytes → Bytes) :
    (∀ name wire, dnsEncodeName name = .ok wire → (dnsDecodeName wire = .ok (trimDot name) ↔
      (nameLabels name).length ≤ 127 ∧ ∀ l ∈ nameLabels name, WellFormed l)) ∧
    (∀ wire name, dnsDecodeName wire = .ok name →
      (dnsEncodeName name = .ok (upToTerminator wire) ↔ ∀ l ∈ labelsOf wire, Canonical l)) ∧
    (∀ wire wire' name, dnsDecodeName wire = .ok name → dnsDecodeName wire' = .ok name →
      (∀ l ∈ labelsOf wire, Canonical l) →
        (upToTerminator wire = upToTerminator wire' ↔ ∀ l ∈ labelsOf wire', Canonical l)) ∧
    ∀ wire name, dnsDecodeName wire = .ok name → (∀ l ∈ labelsOf wire, Canonical l) →
      namehash keccak256 name = hashFold keccak256 (labelsOf wire) := by
  refine ⟨fun name wire h => decode_encode_iff h, fun wire name h => reencode_iff h,
    fun wire wire' name h h' hcanonical => ?_, fun wire name h hcanonical => namehash_of_canonical keccak256 h hcanonical⟩
  have hencode := (reencode_iff h).2 hcanonical
  rw [← reencode_iff h', hencode, Except.ok.injEq]

-- One label `a.b`, and the two labels `a` and `b`.
theorem two_wires_one_name : ¬ ∀ wire wire' name, dnsDecodeName wire = .ok name → dnsDecodeName wire' = .ok name →
    upToTerminator wire = upToTerminator wire' := by
  intro hclaim
  have hname : dnsDecodeName [3, 0x61, 0x2E, 0x62, 0] = .ok [.scalar 'a', dot, .scalar 'b'] := by decide
  have hname' : dnsDecodeName [1, 0x61, 1, 0x62, 0] = .ok [.scalar 'a', dot, .scalar 'b'] := by decide
  exact absurd (hclaim _ _ _ hname hname') (by decide)

end Bongtu.Core.Ens
