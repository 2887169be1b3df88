import Moc.Clearsilver.NeHashWalk
import Moc.Lib.Crc
import Mathlib.Data.List.AList

/-!
# Tables keyed by strings

`ne_hash_str_hash` and `ne_hash_str_comp` of `client/clearsilver/util/neo_hash.c`, with `ne_crc` of
`neo_misc.c`. All tables of the server and of the client are made with them. `neCrc_eq` says that the
table-driven `ne_crc` is the bit-by-bit CRC-32. `TableHolds` relates a table to the finite map that other
modules use for it, and `tableHolds_run` keeps it along the calls.
-/

open Buckets Memory Runs

namespace Moc

/-! ## The hash function -/

/-- `CRCTable` -/
def crcTable : List (BitVec 32) := [
    0x00000000, 0x77073096, 0xee0e612c, 0x990951ba, 0x076dc419, 0x706af48f, 0xe963a535, 0x9e6495a3,
    0x0edb8832, 0x79dcb8a4, 0xe0d5e91e, 0x97d2d988, 0x09b64c2b, 0x7eb17cbd, 0xe7b82d07, 0x90bf1d91,
    0x1db71064, 0x6ab020f2, 0xf3b97148, 0x84be41de, 0x1adad47d, 0x6ddde4eb, 0xf4d4b551, 0x83d385c7,
    0x136c9856, 0x646ba8c0, 0xfd62f97a, 0x8a65c9ec, 0x14015c4f, 0x63066cd9, 0xfa0f3d63, 0x8d080df5,
    0x3b6e20c8, 0x4c69105e, 0xd56041e4, 0xa2677172, 0x3c03e4d1, 0x4b04d447, 0xd20d85fd, 0xa50ab56b,
    0x35b5a8fa, 0x42b2986c, 0xdbbbc9d6, 0xacbcf940, 0x32d86ce3, 0x45df5c75, 0xdcd60dcf, 0xabd13d59,
    0x26d930ac, 0x51de003a, 0xc8d75180, 0xbfd06116, 0x21b4f4b5, 0x56b3c423, 0xcfba9599, 0xb8bda50f,
    0x2802b89e, 0x5f058808, 0xc60cd9b2, 0xb10be924, 0x2f6f7c87, 0x58684c11, 0xc1611dab, 0xb6662d3d,
    0x76dc4190, 0x01db7106, 0x98d220bc, 0xefd5102a, 0x71b18589, 0x06b6b51f, 0x9fbfe4a5, 0xe8b8d433,
    0x7807c9a2, 0x0f00f934, 0x9609a88e, 0xe10e9818, 0x7f6a0dbb, 0x086d3d2d, 0x91646c97, 0xe6635c01,
    0x6b6b51f4, 0x1c6c6162, 0x856530d8, 0xf262004e, 0x6c0695ed, 0x1b01a57b, 0x8208f4c1, 0xf50fc457,
    0x65b0d9c6, 0x12b7e950, 0x8bbeb8ea, 0xfcb9887c, 0x62dd1ddf, 0x15da2d49, 0x8cd37cf3, 0xfbd44c65,
    0x4db26158, 0x3ab551ce, 0xa3bc0074, 0xd4bb30e2, 0x4adfa541, 0x3dd895d7, 0xa4d1c46d, 0xd3d6f4fb,
    0x4369e96a, 0x346ed9fc, 0xad678846, 0xda60b8d0, 0x44042d73, 0x33031de5, 0xaa0a4c5f, 0xdd0d7cc9,
    0x5005713c, 0x270241aa, 0xbe0b1010, 0xc90c2086, 0x5768b525, 0x206f85b3, 0xb966d409, 0xce61e49f,
    0x5edef90e, 0x29d9c998, 0xb0d09822, 0xc7d7a8b4, 0x59b33d17, 0x2eb40d81, 0xb7bd5c3b, 0xc0ba6cad,
    0xedb88320, 0x9abfb3b6, 0x03b6e20c, 0x74b1d29a, 0xead54739, 0x9dd277af, 0x04db2615, 0x73dc1683,
    0xe3630b12, 0x94643b84, 0x0d6d6a3e, 0x7a6a5aa8, 0xe40ecf0b, 0x9309ff9d, 0x0a00ae27, 0x7d079eb1,
    0xf00f9344, 0x8708a3d2, 0x1e01f268, 0x6906c2fe, 0xf762575d, 0x806567cb, 0x196c3671, 0x6e6b06e7,
    0xfed41b76, 0x89d32be0, 0x10da7a5a, 0x67dd4acc, 0xf9b9df6f, 0x8ebeeff9, 0x17b7be43, 0x60b08ed5,
    0xd6d6a3e8, 0xa1d1937e, 0x38d8c2c4, 0x4fdff252, 0xd1bb67f1, 0xa6bc5767, 0x3fb506dd, 0x48b2364b,
    0xd80d2bda, 0xaf0a1b4c, 0x36034af6, 0x41047a60, 0xdf60efc3, 0xa867df55, 0x316e8eef, 0x4669be79,
    0xcb61b38c, 0xbc66831a, 0x256fd2a0, 0x5268e236, 0xcc0c7795, 0xbb0b4703, 0x220216b9, 0x5505262f,
    0xc5ba3bbe, 0xb2bd0b28, 0x2bb45a92, 0x5cb36a04, 0xc2d7ffa7, 0xb5d0cf31, 0x2cd99e8b, 0x5bdeae1d,
    0x9b64c2b0, 0xec63f226, 0x756aa39c, 0x026d930a, 0x9c0906a9, 0xeb0e363f, 0x72076785, 0x05005713,
    0x95bf4a82, 0xe2b87a14, 0x7bb12bae, 0x0cb61b38, 0x92d28e9b, 0xe5d5be0d, 0x7cdcefb7, 0x0bdbdf21,
    0x86d3d2d4, 0xf1d4e242, 0x68ddb3f8, 0x1fda836e, 0x81be16cd, 0xf6b9265b, 0x6fb077e1, 0x18b74777,
    0x88085ae6, 0xff0f6a70, 0x66063bca, 0x11010b5c, 0x8f659eff, 0xf862ae69, 0x616bffd3, 0x166ccf45,
    0xa00ae278, 0xd70dd2ee, 0x4e048354, 0x3903b3c2, 0xa7672661, 0xd06016f7, 0x4969474d, 0x3e6e77db,
    0xaed16a4a, 0xd9d65adc, 0x40df0b66, 0x37d83bf0, 0xa9bcae53, 0xdebb9ec5, 0x47b2cf7f, 0x30b5ffe9,
    0xbdbdf21c, 0xcabac28a, 0x53b39330, 0x24b4a3a6, 0xbad03605, 0xcdd70693, 0x54de5729, 0x23d967bf,
    0xb3667a2e, 0xc4614ab8, 0x5d681b02, 0x2a6f2b94, 0xb40bbe37, 0xc30c8ea1, 0x5a05df1b, 0x2d02ef8d]

/-- `ne_crc` of the bytes of a string. -/
def neCrc (data : List UInt8) : BitVec 32 :=
  ~~~data.foldl (fun crc b =>
    ((crc >>> 8) &&& 0xffffff#32) ^^^
      crcTable.getD ((crc ^^^ b.toBitVec.setWidth 32) &&& 0xff#32).toNat 0) (BitVec.allOnes 32)

/-- The reversed polynomial of CRC-32. -/
def crcPoly : BitVec 32 := 0xedb88320

/-- The CRC-32 of a string, bit by bit. -/
def crc32 (data : List UInt8) : BitVec 32 :=
  ~~~data.foldl (fun crc b => Crc.byte crcPoly crc b.toBitVec) (BitVec.allOnes 32)

/-- The entries of the table are eight steps of their indices. -/
theorem crcTable_eq :
    crcTable = (List.range 256).map fun i => Crc.steps crcPoly 8 ((BitVec.ofNat 8 i).setWidth 32) := by
  decide +kernel

theorem crcTable_getD (i : BitVec 8) :
    crcTable.getD i.toNat 0 = Crc.steps crcPoly 8 (i.setWidth 32) := by
  rw [crcTable_eq, List.getD_eq_getElem?_getD, List.getElem?_map, List.getElem?_range i.isLt]
  simp

/-- `ne_crc` is CRC-32. -/
theorem neCrc_eq (data : List UInt8) : neCrc data = crc32 data := by
  rw [neCrc, crc32]
  refine congrArg (fun f => ~~~data.foldl f _) (funext fun crc => funext fun b => ?_)
  have hmask : (crc >>> 8) &&& 0xffffff#32 = crc >>> 8 := by
    apply BitVec.eq_of_toNat_eq
    have hlt : (crc >>> 8).toNat < 2 ^ 24 := by
      rw [BitVec.toNat_ushiftRight, Nat.shiftRight_eq_div_pow]
      have := crc.isLt
      omega
    rw [BitVec.toNat_and]
    change (crc >>> 8).toNat &&& (2 ^ 24 - 1) = _
    rw [Nat.and_two_pow_sub_one_of_lt_two_pow hlt]
  have hindex : ((crc ^^^ b.toBitVec.setWidth 32) &&& 0xff#32).toNat =
      ((crc ^^^ b.toBitVec.setWidth 32).setWidth 8).toNat := by
    rw [BitVec.toNat_and, BitVec.toNat_setWidth]
    exact Nat.and_two_pow_sub_one_eq_mod _ 8
  have htable := Crc.byte_eq_table crcPoly (fun i => crcTable_getD i) crc b.toBitVec
  rw [hmask, hindex, ← htable]

/-! ## Tables and finite maps -/

section

variable {K V : Type} [DecidableEq K] {text : K → List UInt8}

/-- `ne_hash_str_hash` and `ne_hash_str_comp`, for keys that are the C strings `text`. -/
def strFuncs (text : K → List UInt8) : NeHashFuncs K where
  hashFunc k := ⟨neCrc (text k)⟩
  compFunc := some fun a b => text a = text b
  isNull _ := false

theorem strFuncs_same (htext : Function.Injective text) (a b : K) :
    (strFuncs text).same a b = decide (a = b) :=
  decide_eq_decide.mpr htext.eq_iff

theorem strFuncs_lawful (htext : Function.Injective text) : (strFuncs text).Lawful where
  refl a := by simp [strFuncs_same htext]
  symm h := by
    rw [strFuncs_same htext, decide_eq_true_eq] at h ⊢
    exact h.symm
  trans h h' := by
    rw [strFuncs_same htext, decide_eq_true_eq] at h h' ⊢
    exact h.trans h'
  hashFunc_eq h := by
    rw [strFuncs_same htext, decide_eq_true_eq] at h
    rw [h]

/-- A change of a table; `grow` says whether `realloc` succeeds. -/
inductive TableOp (K V : Type)
  | insert (key : K) (value : V) (grow : Bool)
  | remove (key : K)

/-- The call that makes a change. Values are not null, and `malloc` succeeds. -/
def TableOp.call : TableOp K V → HashCall K V
  | .insert key value grow => .insert key (some value) true grow
  | .remove key => .remove key

/-- The change on a finite map. -/
def TableOp.apply (m : AList fun _ : K => V) : TableOp K V → AList fun _ : K => V
  | .insert key value _ => m.insert key value
  | .remove key => m.erase key

/-- The table has the entries of the map. -/
structure TableHolds (text : K → List UInt8) (h : NeHash K V) (m : AList fun _ : K => V) : Prop where
  ok : h.Ok (strFuncs text)
  num_lt : h.num < 2 ^ 31
  toMap_eq : ∀ k, h.toMap (strFuncs text) k = (m.lookup k).map some

/-- The map that a finite map is. -/
def pointers (m : AList fun _ : K => V) (k : K) : Option (Option V) := (m.lookup k).map some

/-- A change of the table changes the map. -/
theorem mapStep_pointers (htext : Function.Injective text) (m : AList fun _ : K => V) (op : TableOp K V) :
    ∃ ret, mapStep (strFuncs text) (pointers m) op.call = .ok (ret, pointers (op.apply m)) := by
  cases op with
  | insert key value grow =>
    refine ⟨.inserted, ?_⟩
    rw [TableOp.call, mapStep, if_neg fun hand => Bool.noConfusion hand.2]
    refine congrArg (fun m => Except.ok (HashRet.inserted, m)) (funext fun k => ?_)
    rw [strFuncs_same htext, pointers, pointers, TableOp.apply]
    by_cases hk : k = key
    · subst hk
      simp
    · simp [AList.lookup_insert_ne hk, Ne.symm hk]
  | remove key =>
    refine ⟨.value (pointers m key).join, ?_⟩
    rw [TableOp.call, mapStep]
    refine congrArg (fun m => Except.ok (_, m)) (funext fun k => ?_)
    rw [strFuncs_same htext, pointers, pointers, TableOp.apply]
    by_cases hk : k = key
    · subst hk
      simp
    · simp [AList.lookup_erase_ne hk, Ne.symm hk]

theorem mapRun_pointers (htext : Function.Injective text) (ops : List (TableOp K V))
    (m : AList fun _ : K => V) :
    ∃ rets, run (mapStep (strFuncs text)) (pointers m) (ops.map TableOp.call) =
      .ok (rets, pointers (ops.foldl TableOp.apply m)) := by
  induction ops generalizing m with
  | nil => exact ⟨[], rfl⟩
  | cons op ops ih =>
    obtain ⟨ret, hstep⟩ := mapStep_pointers htext m op
    obtain ⟨rets, hrun⟩ := ih (op.apply m)
    refine ⟨ret :: rets, ?_⟩
    rw [List.map_cons, run, hstep, ok_bind]
    dsimp only
    rw [hrun]
    rfl

/-- The changes of a new table leave it with the entries of the map that they make. -/
theorem tableHolds_run (htext : Function.Injective text) (ops : List (TableOp K V))
    (hops : inserts (ops.map TableOp.call) < 2 ^ 31) :
    ∃ rets h, run (neHashStep (strFuncs text)) neHashInit (ops.map TableOp.call) = .ok (rets, h) ∧
      TableHolds text h (ops.foldl TableOp.apply ∅) := by
  have hagree := neHashRun_agree (strFuncs_lawful htext) (ops.map TableOp.call) hops
  obtain ⟨rets, hmap⟩ := mapRun_pointers htext ops ∅
  have hempty : pointers (∅ : AList fun _ : K => V) = fun _ => none := rfl
  rw [hempty] at hmap
  rw [hmap] at hagree
  cases hrun : run (neHashStep (strFuncs text)) neHashInit (ops.map TableOp.call) with
  | error e =>
    rw [hrun] at hagree
    exact hagree.elim
  | ok r =>
    obtain ⟨rets', h⟩ := r
    rw [hrun] at hagree
    obtain ⟨-, hst⟩ := hagree
    exact ⟨rets', h, rfl, hst.ok, Nat.lt_of_le_of_lt (Nat.le_add_right ..) hst.room,
      congrFun hst.map_eq⟩

namespace TableHolds

variable {h : NeHash K V} {m : AList fun _ : K => V}

theorem mem_iff (hh : TableHolds text h m) (htext : Function.Injective text) (k : K) (v : Option V) :
    (∃ node ∈ h.entries, node.key = k ∧ node.value = v) ↔ (m.lookup k).map some = some v := by
  have hF := strFuncs_lawful htext
  rw [← hh.toMap_eq k, NeHash.toMap, Option.map_eq_some_iff]
  constructor
  · rintro ⟨node, hnode, rfl, rfl⟩
    exact ⟨node, (hh.ok.distinct.find?_eq_some hF.cancel).mpr ⟨hnode, hF.refl _⟩, rfl⟩
  · rintro ⟨node, hfind, rfl⟩
    obtain ⟨hnode, hsame⟩ := (hh.ok.distinct.find?_eq_some hF.cancel).mp hfind
    rw [strFuncs_same htext, decide_eq_true_eq] at hsame
    exact ⟨node, hnode, hsame, rfl⟩

/-- No value is null. -/
theorem value_isSome (hh : TableHolds text h m) (htext : Function.Injective text) :
    ∀ node ∈ h.entries, node.value.isSome := by
  intro node hnode
  have hlookup := (hh.mem_iff htext node.key node.value).mp ⟨node, hnode, rfl, rfl⟩
  obtain ⟨v, -, hv⟩ := Option.map_eq_some_iff.mp hlookup
  rw [← hv]
  rfl

theorem nonNull (hh : TableHolds text h m) (htext : Function.Injective text) : h.NonNull (strFuncs text) :=
  fun node hnode => ⟨rfl, hh.value_isSome htext node hnode⟩

/-- What a walk over the table meets are the entries of the map, in some order. -/
theorem met_perm (hh : TableHolds text h m) (htext : Function.Injective text) :
    (NeHash.met h.entries).Perm (m.entries.map fun e => (some e.1, e.2)) := by
  have hF := strFuncs_lawful htext
  refine (List.perm_ext_iff_of_nodup ?_ ?_).mpr ?_
  · -- Two nodes have two keys.
    refine List.pairwise_filterMap.mpr (hh.ok.distinct.imp fun {node node'} hne => ?_)
    intro p hp p' hp' heq
    obtain ⟨v, -, rfl⟩ := Option.map_eq_some_iff.mp hp
    obtain ⟨v', -, rfl⟩ := Option.map_eq_some_iff.mp hp'
    have hkey := Option.some.inj (Prod.mk.inj heq).1
    exact hne (hkey ▸ hF.refl _)
  · refine List.Nodup.map (fun e e' heq => ?_) m.nodupKeys.nodup
    obtain ⟨hk, hv⟩ := Prod.mk.inj heq
    exact Sigma.ext (Option.some.inj hk) (heq_of_eq hv)
  · rintro ⟨key, v⟩
    rw [NeHash.met, List.mem_filterMap, List.mem_map]
    constructor
    · rintro ⟨node, hnode, hp⟩
      obtain ⟨v', hv', heq⟩ := Option.map_eq_some_iff.mp hp
      obtain ⟨rfl, rfl⟩ := Prod.mk.inj heq
      have hlookup := (hh.mem_iff htext node.key node.value).mp ⟨node, hnode, rfl, rfl⟩
      rw [hv'] at hlookup
      obtain ⟨v, hv, hsome⟩ := Option.map_eq_some_iff.mp hlookup
      rw [Option.some.inj hsome] at hv
      exact ⟨⟨node.key, v'⟩, AList.mem_lookup_iff.mp hv, rfl⟩
    · rintro ⟨⟨k, v'⟩, he, heq⟩
      obtain ⟨rfl, rfl⟩ := Prod.mk.inj heq
      have hlookup := AList.mem_lookup_iff.mpr he
      rw [Option.mem_def] at hlookup
      obtain ⟨node, hnode, rfl, hvalue⟩ :=
        (hh.mem_iff htext k (some v')).mpr (by rw [hlookup]; rfl)
      exact ⟨node, hnode, by rw [hvalue]; rfl⟩

theorem length_eq (hh : TableHolds text h m) (htext : Function.Injective text) :
    h.entries.length = m.entries.length := by
  have hmet := congrArg List.length (NeHash.met_map (hh.value_isSome htext))
  have hperm := (hh.met_perm htext).length_eq
  simp only [List.length_map] at hmet hperm
  omega

end TableHolds

end

end Moc
