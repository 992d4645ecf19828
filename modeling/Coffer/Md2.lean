/-
# The hash of the attestation

The manager attests a module by the MD2 hash of its image (`attest/md2.c`); the signing tool
compiles a copy of the same file. The context hashes a block as soon as it is full: the checksum
is updated beside the hash, a partial block waits in `last`, and the final call pads, then hashes
the checksum through the state it has just finished.

`Md2Standard` is the algorithm as the standard states it: pad the whole message, append the
checksum of the padded message (in the form that exclusive-ors into the checksum byte), and pass
a buffer of 48 bytes over the blocks of the result. The code computes that digest, however the
message is cut into calls.

Key definitions: `Md2Ctx`, `md2Update`, `md2Final`, `md2`, `Md2Standard.digest`, `attestEmodule`.
Key theorems: `Md2Rep.update`, `md2Final_rep`, `md2_chunks`.
-/
import Coffer.Memory
import Coffer.Lib.Stream

namespace Coffer

open Lib.Stream

variable {buf data m x : List UInt8} {c : List UInt8 × UInt8} {off : ℕ}

/-! ### The code -/

/-- `S`. -/
def sTable : List UInt8 :=
  [0x29, 0x2E, 0x43, 0xC9, 0xA2, 0xD8, 0x7C, 0x01, 0x3D, 0x36, 0x54, 0xA1, 0xEC, 0xF0, 0x06, 0x13,
   0x62, 0xA7, 0x05, 0xF3, 0xC0, 0xC7, 0x73, 0x8C, 0x98, 0x93, 0x2B, 0xD9, 0xBC, 0x4C, 0x82, 0xCA,
   0x1E, 0x9B, 0x57, 0x3C, 0xFD, 0xD4, 0xE0, 0x16, 0x67, 0x42, 0x6F, 0x18, 0x8A, 0x17, 0xE5, 0x12,
   0xBE, 0x4E, 0xC4, 0xD6, 0xDA, 0x9E, 0xDE, 0x49, 0xA0, 0xFB, 0xF5, 0x8E, 0xBB, 0x2F, 0xEE, 0x7A,
   0xA9, 0x68, 0x79, 0x91, 0x15, 0xB2, 0x07, 0x3F, 0x94, 0xC2, 0x10, 0x89, 0x0B, 0x22, 0x5F, 0x21,
   0x80, 0x7F, 0x5D, 0x9A, 0x5A, 0x90, 0x32, 0x27, 0x35, 0x3E, 0xCC, 0xE7, 0xBF, 0xF7, 0x97, 0x03,
   0xFF, 0x19, 0x30, 0xB3, 0x48, 0xA5, 0xB5, 0xD1, 0xD7, 0x5E, 0x92, 0x2A, 0xAC, 0x56, 0xAA, 0xC6,
   0x4F, 0xB8, 0x38, 0xD2, 0x96, 0xA4, 0x7D, 0xB6, 0x76, 0xFC, 0x6B, 0xE2, 0x9C, 0x74, 0x04, 0xF1,
   0x45, 0x9D, 0x70, 0x59, 0x64, 0x71, 0x87, 0x20, 0x86, 0x5B, 0xCF, 0x65, 0xE6, 0x2D, 0xA8, 0x02,
   0x1B, 0x60, 0x25, 0xAD, 0xAE, 0xB0, 0xB9, 0xF6, 0x1C, 0x46, 0x61, 0x69, 0x34, 0x40, 0x7E, 0x0F,
   0x55, 0x47, 0xA3, 0x23, 0xDD, 0x51, 0xAF, 0x3A, 0xC3, 0x5C, 0xF9, 0xCE, 0xBA, 0xC5, 0xEA, 0x26,
   0x2C, 0x53, 0x0D, 0x6E, 0x85, 0x28, 0x84, 0x09, 0xD3, 0xDF, 0xCD, 0xF4, 0x41, 0x81, 0x4D, 0x52,
   0x6A, 0xDC, 0x37, 0xC8, 0x6C, 0xC1, 0xAB, 0xFA, 0x24, 0xE1, 0x7B, 0x08, 0x0C, 0xBD, 0xB1, 0x4A,
   0x78, 0x88, 0x95, 0x8B, 0xE3, 0x63, 0xE8, 0x6D, 0xE9, 0xCB, 0xD5, 0xFE, 0x3B, 0x00, 0x1D, 0x39,
   0xF2, 0xEF, 0xB7, 0x0E, 0x66, 0x58, 0xD0, 0xE4, 0xA6, 0x77, 0x72, 0xF8, 0xEB, 0x75, 0x4B, 0x0A,
   0x31, 0x44, 0x50, 0xB4, 0x8F, 0xED, 0x1F, 0x1A, 0xDB, 0x99, 0x8D, 0x33, 0x9F, 0x11, 0x83, 0x14]

/-- `S[b]`. -/
def sAt (b : UInt8) : UInt8 := sTable.getD b.toNat 0

/-- `md2ctx_t`. -/
structure Md2Ctx where
  hashBuf : List UInt8
  blk1 : List UInt8
  blk2 : List UInt8
  /-- `last.used_cnt` -/
  usedCnt : ℕ
  /-- `last.buf` -/
  buf : List UInt8
  checksum : List UInt8

/-- `enum md2_state`, as far as the code returns it. -/
inductive Md2Ret
  | ok
  | nullptr
deriving DecidableEq, Repr

def clearBlock : List UInt8 := List.replicate 16 0

def md2Init : Md2Ctx :=
  { hashBuf := clearBlock, blk1 := clearBlock, blk2 := clearBlock, usedCnt := 0,
    buf := clearBlock, checksum := clearBlock }

/-- The loop of `md2_update_checksum`, from the byte it has reached. -/
def checksumLoop : UInt8 → List UInt8 → List UInt8 → List UInt8
  | l, c :: cs, b :: bs => (c ^^^ sAt (b ^^^ l)) :: checksumLoop (c ^^^ sAt (b ^^^ l)) cs bs
  | _, cs, _ => cs

def md2UpdateChecksum (ctx : Md2Ctx) (block : List UInt8) : Md2Ctx :=
  { ctx with checksum := checksumLoop (ctx.checksum.getD 15 0) ctx.checksum block }

def md2PrepareBlk (ctx : Md2Ctx) (block : List UInt8) : Md2Ctx :=
  { ctx with blk1 := block, blk2 := List.zipWith (· ^^^ ·) block ctx.hashBuf }

/-- One of the inner loops of `md2_process_block`: `x[j] ^= S[tmp]; tmp = x[j]` along an array. -/
def substLoop : UInt8 → List UInt8 → List UInt8 × UInt8
  | tmp, [] => ([], tmp)
  | tmp, x :: xs =>
    let r := substLoop (x ^^^ sAt tmp) xs
    ((x ^^^ sAt tmp) :: r.1, r.2)

/-- Pass `i` of `md2_process_block` over the three arrays. -/
def md2Pass (i : ℕ) (ctx : Md2Ctx) (tmp : UInt8) : Md2Ctx × UInt8 :=
  let r := substLoop tmp ctx.hashBuf
  let r1 := substLoop r.2 ctx.blk1
  let r2 := substLoop r1.2 ctx.blk2
  ({ ctx with hashBuf := r.1, blk1 := r1.1, blk2 := r2.1 }, r2.2 + UInt8.ofNat i)

@[irreducible] def md2ProcessBlock (ctx : Md2Ctx) (block : List UInt8) : Md2Ctx :=
  ((List.range 18).foldl (fun st i => md2Pass i st.1 st.2)
    (md2PrepareBlk (md2UpdateChecksum ctx block) block, 0)).1

/-- `memcpy(&buf[off], data, size)`. -/
def copyInto (buf : List UInt8) (off : ℕ) (data : List UInt8) : List UInt8 :=
  buf.take off ++ data ++ buf.drop (off + data.length)

/-- The `while` loop of `md2_update`; it ends after at most `fuel` blocks. -/
def md2Blocks : ℕ → Md2Ctx → List UInt8 → Md2Ctx × List UInt8
  | 0, ctx, data => (ctx, data)
  | fuel + 1, ctx, data =>
    if 16 ≤ data.length then md2Blocks fuel (md2ProcessBlock ctx (data.take 16)) (data.drop 16)
    else (ctx, data)

/-- The second half of `md2_update`: whole blocks, then the remainder into the buffer. -/
def md2UpdateBlocks (ctx : Md2Ctx) (data : List UInt8) : Md2Ctx :=
  let r := md2Blocks data.length ctx data
  { r.1 with buf := copyInto r.1.buf 0 r.2, usedCnt := r.2.length }

/-- `md2_update`; `none` is a null `data`. -/
def md2Update (ctx : Md2Ctx) : Option (List UInt8) → Md2Ret × Md2Ctx
  | none => (.nullptr, ctx)
  | some data =>
    if ctx.usedCnt ≠ 0 then
      if ctx.usedCnt + data.length < 16 then
        (.ok, { ctx with buf := copyInto ctx.buf ctx.usedCnt data,
                         usedCnt := ctx.usedCnt + data.length })
      else
        let copiedLen := 16 - ctx.usedCnt
        let ctx1 := { ctx with buf := copyInto ctx.buf ctx.usedCnt (data.take copiedLen) }
        let ctx2 := { md2ProcessBlock ctx1 ctx1.buf with usedCnt := 0, buf := clearBlock }
        (.ok, md2UpdateBlocks ctx2 (data.drop copiedLen))
    else (.ok, md2UpdateBlocks ctx data)

/-- `md2_final`: the digest and the context it leaves. -/
def md2Final (ctx : Md2Ctx) : List UInt8 × Md2Ctx :=
  let paddingLen := 16 - ctx.usedCnt
  let ctx1 := { ctx with
    buf := copyInto ctx.buf ctx.usedCnt (List.replicate paddingLen (UInt8.ofNat paddingLen)) }
  let ctx2 := { md2ProcessBlock ctx1 ctx1.buf with usedCnt := 0 }
  let ctx3 := { ctx2 with buf := copyInto ctx2.buf 0 ctx2.checksum }
  let ctx4 := md2ProcessBlock ctx3 ctx3.buf
  (ctx4.hashBuf, ctx4)

/-- The calls `md2` makes on a fresh context. -/
def md2Digest (data : List UInt8) : List UInt8 := (md2Final (md2Update md2Init (some data)).2).1

/-- `md2`; a null input gives no digest. -/
def md2 (data : Option (List UInt8)) : Option (List UInt8) := data.map md2Digest

/-- The calls of `md2_update` on the chunks of a message, in order. -/
def md2Updates (ctx : Md2Ctx) (chunks : List (List UInt8)) : Md2Ctx :=
  chunks.foldl (fun ctx data => (md2Update ctx (some data)).2) ctx

/-- The hash of `attest_emodule`: the digest of the image without its signature, twice. -/
def attestHash (image : List UInt8) : List UInt8 :=
  let digest := md2Digest (image.take (image.length - 64))
  digest ++ digest

/-- `attest_emodule`. The curve's `ecdsa_verify` under the built-in public key is `verify`. -/
def attestEmodule (verify : List UInt8 → List UInt8 → Bool) (image : List UInt8) : Res Unit :=
  if image.length ≤ 64 then .error (.panic "Invalid emodule size\n")
  else if verify (attestHash image) (image.drop (image.length - 64)) then .ok ()
  else .error (.panic "attestation failed\n")

/-- `compute_md2_hash` of the signing tool. -/
def computeMd2Hash (payload : List UInt8) : List UInt8 :=
  let digest := md2Digest payload
  digest ++ digest

/-! ### The standard -/

namespace Md2Standard

/-- The substitution table, from the digits of pi. -/
def piSubst : List UInt8 :=
  [41, 46, 67, 201, 162, 216, 124, 1, 61, 54, 84, 161, 236, 240, 6, 19,
   98, 167, 5, 243, 192, 199, 115, 140, 152, 147, 43, 217, 188, 76, 130, 202,
   30, 155, 87, 60, 253, 212, 224, 22, 103, 66, 111, 24, 138, 23, 229, 18,
   190, 78, 196, 214, 218, 158, 222, 73, 160, 251, 245, 142, 187, 47, 238, 122,
   169, 104, 121, 145, 21, 178, 7, 63, 148, 194, 16, 137, 11, 34, 95, 33,
   128, 127, 93, 154, 90, 144, 50, 39, 53, 62, 204, 231, 191, 247, 151, 3,
   255, 25, 48, 179, 72, 165, 181, 209, 215, 94, 146, 42, 172, 86, 170, 198,
   79, 184, 56, 210, 150, 164, 125, 182, 118, 252, 107, 226, 156, 116, 4, 241,
   69, 157, 112, 89, 100, 113, 135, 32, 134, 91, 207, 101, 230, 45, 168, 2,
   27, 96, 37, 173, 174, 176, 185, 246, 28, 70, 97, 105, 52, 64, 126, 15,
   85, 71, 163, 35, 221, 81, 175, 58, 195, 92, 249, 206, 186, 197, 234, 38,
   44, 83, 13, 110, 133, 40, 132, 9, 211, 223, 205, 244, 65, 129, 77, 82,
   106, 220, 55, 200, 108, 193, 171, 250, 36, 225, 123, 8, 12, 189, 177, 74,
   120, 136, 149, 139, 227, 99, 232, 109, 233, 203, 213, 254, 59, 0, 29, 57,
   242, 239, 183, 14, 102, 88, 208, 228, 166, 119, 114, 248, 235, 117, 75, 10,
   49, 68, 80, 180, 143, 237, 31, 26, 219, 153, 141, 51, 159, 17, 131, 20]

/-- Padding: `p` bytes of value `p`, to the next multiple of 16, at least one. -/
def pad (m : List UInt8) : List UInt8 :=
  m ++ List.replicate (16 - m.length % 16) (UInt8.ofNat (16 - m.length % 16))

/-- The checksum bytes along one block: `C[j] := C[j] xor S[M[16 i + j] xor L]; L := C[j]`. -/
def checksumBytes : List UInt8 × UInt8 → List UInt8 → List UInt8 × UInt8
  | (c :: cs, l), b :: bs =>
    let c' := c ^^^ piSubst.getD (b ^^^ l).toNat 0
    let r := checksumBytes (cs, c') bs
    (c' :: r.1, r.2)
  | r, _ => r

/-- The checksum of a padded message; `L` runs on from block to block. -/
def checksum (m : List UInt8) : List UInt8 :=
  (whole checksumBytes 16 (List.replicate 16 0, 0) m).1

/-- One pass over the buffer: `t := X[k] := X[k] xor S[t]`. -/
def pass : UInt8 → List UInt8 → List UInt8 × UInt8
  | t, [] => ([], t)
  | t, x :: xs =>
    let r := pass (x ^^^ piSubst.getD t.toNat 0) xs
    ((x ^^^ piSubst.getD t.toNat 0) :: r.1, r.2)

/-- The buffer of 48 bytes over one block: copy the block in, beside its exclusive-or with the
digest so far; then 18 passes, `t := t + j mod 256` after pass `j`. -/
def hashBlock (x block : List UInt8) : List UInt8 :=
  ((List.range 18).foldl
    (fun (st : List UInt8 × UInt8) j =>
      ((pass st.2 st.1).1, UInt8.ofNat (((pass st.2 st.1).2.toNat + j) % 256)))
    (x.take 16 ++ block ++ List.zipWith (· ^^^ ·) block (x.take 16), 0)).1

/-- The digest of a message. -/
def digest (m : List UInt8) : List UInt8 :=
  (whole hashBlock 16 (List.replicate 48 0) (pad m ++ checksum (pad m))).take 16

end Md2Standard

/-! ### Lengths -/

theorem length_checksumLoop (l : UInt8) (cs bs : List UInt8) :
    (checksumLoop l cs bs).length = cs.length := by
  induction cs generalizing l bs with
  | nil => cases bs <;> rfl
  | cons c cs ih =>
    cases bs with
    | nil => rfl
    | cons b bs => simp [checksumLoop, ih]

theorem length_substLoop (t : UInt8) (xs : List UInt8) : (substLoop t xs).1.length = xs.length := by
  induction xs generalizing t with
  | nil => rfl
  | cons x xs ih => simp [substLoop, ih]

theorem length_copyInto (h : off + data.length ≤ buf.length) :
    (copyInto buf off data).length = buf.length := by
  simp only [copyInto, List.length_append, List.length_take, List.length_drop]
  omega

theorem take_copyInto (data : List UInt8) (h : off ≤ buf.length) :
    (copyInto buf off data).take (off + data.length) = buf.take off ++ data := by
  have hl : (buf.take off ++ data).length = off + data.length := by
    rw [List.length_append, List.length_take_of_le h]
  rw [copyInto, ← hl, List.take_left]

theorem copyInto_full (h : off + data.length = buf.length) :
    copyInto buf off data = buf.take off ++ data := by
  rw [copyInto, List.drop_of_length_le (le_of_eq h.symm), List.append_nil]

/-! ### A block against the standard -/

theorem sTable_eq : sTable = Md2Standard.piSubst := by decide +kernel

theorem sAt_eq (b : UInt8) : sAt b = Md2Standard.piSubst.getD b.toNat 0 := by
  rw [sAt, sTable_eq]

theorem substLoop_eq (t : UInt8) (xs : List UInt8) : substLoop t xs = Md2Standard.pass t xs := by
  induction xs generalizing t with
  | nil => rfl
  | cons x xs ih => simp only [substLoop, Md2Standard.pass, ih, sAt_eq]

theorem pass_append (t : UInt8) (xs ys : List UInt8) :
    Md2Standard.pass t (xs ++ ys) =
      ((Md2Standard.pass t xs).1 ++ (Md2Standard.pass (Md2Standard.pass t xs).2 ys).1,
        (Md2Standard.pass (Md2Standard.pass t xs).2 ys).2) := by
  induction xs generalizing t with
  | nil => rfl
  | cons x xs ih => simp only [List.cons_append, Md2Standard.pass, ih]

theorem tmp_add (t : UInt8) (i : ℕ) : t + UInt8.ofNat i = UInt8.ofNat ((t.toNat + i) % 256) := by
  apply UInt8.toNat_inj.1
  simp [UInt8.toNat_add, UInt8.toNat_ofNat']

/-- The three arrays of the context, end to end: the buffer of the standard. -/
def Md2Ctx.buffer (ctx : Md2Ctx) : List UInt8 := ctx.hashBuf ++ ctx.blk1 ++ ctx.blk2

/-- **One pass.** -/
theorem md2Pass_buffer (i : ℕ) (ctx : Md2Ctx) (t : UInt8) :
    ((md2Pass i ctx t).1.buffer, (md2Pass i ctx t).2) =
      ((Md2Standard.pass t ctx.buffer).1,
        UInt8.ofNat (((Md2Standard.pass t ctx.buffer).2.toNat + i) % 256)) := by
  simp only [md2Pass, Md2Ctx.buffer, substLoop_eq, pass_append, tmp_add]

theorem md2Pass_rest (i : ℕ) (ctx : Md2Ctx) (t : UInt8) :
    (md2Pass i ctx t).1.hashBuf.length = ctx.hashBuf.length ∧
      (md2Pass i ctx t).1.checksum = ctx.checksum ∧ (md2Pass i ctx t).1.buf = ctx.buf ∧
      (md2Pass i ctx t).1.usedCnt = ctx.usedCnt :=
  ⟨length_substLoop _ _, rfl, rfl, rfl⟩

theorem md2Passes_buffer (is : List ℕ) (ctx : Md2Ctx) (t : UInt8) :
    let r := is.foldl (fun st i => md2Pass i st.1 st.2) (ctx, t)
    (r.1.buffer, r.2) = is.foldl
      (fun (st : List UInt8 × UInt8) j =>
        ((Md2Standard.pass st.2 st.1).1,
          UInt8.ofNat (((Md2Standard.pass st.2 st.1).2.toNat + j) % 256))) (ctx.buffer, t) := by
  induction is generalizing ctx t with
  | nil => rfl
  | cons i is ih =>
    simp only [List.foldl_cons]
    rw [← md2Pass_buffer]
    exact ih _ _

theorem md2Passes_rest (is : List ℕ) (ctx : Md2Ctx) (t : UInt8) :
    let r := (is.foldl (fun st i => md2Pass i st.1 st.2) (ctx, t)).1
    r.hashBuf.length = ctx.hashBuf.length ∧ r.checksum = ctx.checksum ∧ r.buf = ctx.buf ∧
      r.usedCnt = ctx.usedCnt := by
  induction is generalizing ctx t with
  | nil => exact ⟨rfl, rfl, rfl, rfl⟩
  | cons i is ih =>
    obtain ⟨h1, h2, h3, h4⟩ := md2Pass_rest i ctx t
    obtain ⟨g1, g2, g3, g4⟩ := ih (md2Pass i ctx t).1 (md2Pass i ctx t).2
    exact ⟨g1.trans h1, g2.trans h2, g3.trans h3, g4.trans h4⟩

/-- What `md2_process_block` leaves of the rest of the context. -/
theorem md2ProcessBlock_rest (ctx : Md2Ctx) (block : List UInt8) :
    (md2ProcessBlock ctx block).hashBuf.length = ctx.hashBuf.length ∧
      (md2ProcessBlock ctx block).checksum =
        checksumLoop (ctx.checksum.getD 15 0) ctx.checksum block ∧
      (md2ProcessBlock ctx block).buf = ctx.buf ∧
      (md2ProcessBlock ctx block).usedCnt = ctx.usedCnt := by
  unfold md2ProcessBlock
  exact md2Passes_rest _ _ _

/-- **One block**, against the standard's buffer. -/
theorem md2ProcessBlock_hashBuf {ctx : Md2Ctx} (block : List UInt8)
    (hl : ctx.hashBuf.length = 16) (hx : x.take 16 = ctx.hashBuf) :
    (Md2Standard.hashBlock x block).take 16 = (md2ProcessBlock ctx block).hashBuf := by
  have hb := md2Passes_buffer (List.range 18) (md2PrepareBlk (md2UpdateChecksum ctx block) block) 0
  have h : Md2Standard.hashBlock x block = (md2ProcessBlock ctx block).buffer := by
    rw [Md2Standard.hashBlock, hx]
    unfold md2ProcessBlock
    exact (congrArg Prod.fst hb).symm
  have hlen : (md2ProcessBlock ctx block).hashBuf.length = 16 :=
    (md2ProcessBlock_rest ctx block).1.trans hl
  rw [h, Md2Ctx.buffer, List.append_assoc, ← hlen, List.take_left]

theorem checksumBytes_fst (l : UInt8) (cs bs : List UInt8) :
    (Md2Standard.checksumBytes (cs, l) bs).1 = checksumLoop l cs bs := by
  induction cs generalizing l bs with
  | nil => cases bs <;> rfl
  | cons c cs ih =>
    cases bs with
    | nil => rfl
    | cons b bs => simp only [Md2Standard.checksumBytes, checksumLoop, ih, sAt_eq]

/-- The standard's `L` is the last checksum byte written. -/
theorem checksumBytes_snd (l : UInt8) (cs bs : List UInt8) (h : cs.length = bs.length) :
    (Md2Standard.checksumBytes (cs, l) bs).2 = (checksumLoop l cs bs).getLastD l := by
  induction cs generalizing l bs with
  | nil => cases bs <;> rfl
  | cons c cs ih =>
    cases bs with
    | nil => cases h
    | cons b bs =>
      simp only [Md2Standard.checksumBytes, checksumLoop, List.getLastD_cons]
      rw [← sAt_eq]
      exact ih _ bs (Nat.succ.inj h)

theorem getD_last {l : List UInt8} (h : l.length = 16) (d : UInt8) : l.getD 15 0 = l.getLastD d := by
  rw [List.getLastD_eq_getLast?, List.getLast?_eq_getElem?, h, List.getD_eq_getElem?_getD,
    List.getElem?_eq_getElem (by omega)]
  rfl

/-- The context has hashed up to the standard's buffer `x` and checksum state `c`. -/
structure Md2At (ctx : Md2Ctx) (x : List UInt8) (c : List UInt8 × UInt8) : Prop where
  hash : x.take 16 = ctx.hashBuf
  sum : c = (ctx.checksum, ctx.checksum.getD 15 0)
  hashLen : ctx.hashBuf.length = 16
  sumLen : ctx.checksum.length = 16

/-- **One block** keeps the context in step with the standard. -/
theorem Md2At.block {ctx : Md2Ctx} (h : Md2At ctx x c)
    {block : List UInt8} (hb : block.length = 16) :
    Md2At (md2ProcessBlock ctx block) (Md2Standard.hashBlock x block)
      (Md2Standard.checksumBytes c block) := by
  obtain ⟨hlen, hsum, -, -⟩ := md2ProcessBlock_rest ctx block
  have hl : (checksumLoop (ctx.checksum.getD 15 0) ctx.checksum block).length = 16 :=
    (length_checksumLoop _ _ _).trans h.sumLen
  refine ⟨md2ProcessBlock_hashBuf block h.hashLen h.hash, ?_, hlen.trans h.hashLen,
    by rw [hsum]; exact hl⟩
  rw [h.sum, hsum, getD_last hl (ctx.checksum.getD 15 0),
    ← checksumBytes_snd _ _ _ (h.sumLen.trans hb.symm), ← checksumBytes_fst]

theorem Md2At.congr {ctx : Md2Ctx} (h : Md2At ctx x c)
    (ctx' : Md2Ctx) (h1 : ctx'.hashBuf = ctx.hashBuf) (h2 : ctx'.checksum = ctx.checksum) : Md2At ctx' x c := by
  obtain ⟨ha, hs, hl, hc⟩ := h
  rw [← h1] at ha hl
  rw [← h2] at hs hc
  exact ⟨ha, hs, hl, hc⟩

/-! ### The calls -/

/-- The loop of `md2_update` hashes the whole blocks and leaves the rest. -/
theorem md2Blocks_spec (fuel : ℕ) {ctx : Md2Ctx}
    (hf : data.length ≤ fuel) (h : Md2At ctx x c) :
    Md2At (md2Blocks fuel ctx data).1 (whole Md2Standard.hashBlock 16 x data)
        (whole Md2Standard.checksumBytes 16 c data) ∧
      (md2Blocks fuel ctx data).2 = rest 16 data ∧
      (md2Blocks fuel ctx data).1.buf = ctx.buf := by
  induction fuel generalizing ctx data x c with
  | zero =>
    have hlt : data.length < 16 := by omega
    rw [whole_of_lt _ _ _ hlt, whole_of_lt _ _ _ hlt, rest_of_lt _ hlt]
    exact ⟨h, rfl, rfl⟩
  | succ fuel ih =>
    by_cases hd : 16 ≤ data.length
    · have ht : (data.take 16).length = 16 := List.length_take_of_le hd
      have hr : (data.drop 16).length ≤ fuel := by
        rw [List.length_drop]
        omega
      obtain ⟨h1, h2, h3⟩ := ih hr (h.block ht)
      rw [md2Blocks, if_pos hd]
      refine ⟨?_, ?_, h3.trans (md2ProcessBlock_rest ctx _).2.2.1⟩
      · have hx := whole_block Md2Standard.hashBlock 16 (by decide) x ht (data.drop 16)
        have hc := whole_block Md2Standard.checksumBytes 16 (by decide) c ht (data.drop 16)
        rw [List.take_append_drop] at hx hc
        rw [hx, hc]
        exact h1
      · have hx := rest_block 16 (by decide) ht (data.drop 16)
        rw [List.take_append_drop] at hx
        exact h2.trans hx.symm
    · have hlt : data.length < 16 := by omega
      rw [md2Blocks, if_neg hd, whole_of_lt _ _ _ hlt, whole_of_lt _ _ _ hlt, rest_of_lt _ hlt]
      exact ⟨h, rfl, rfl⟩

/-- The context holds the message `m`: its whole blocks are hashed, the rest waits in `last`. -/
structure Md2Rep (ctx : Md2Ctx) (m : List UInt8) : Prop where
  hashed : Md2At ctx (whole Md2Standard.hashBlock 16 (List.replicate 48 0) m)
    (whole Md2Standard.checksumBytes 16 (List.replicate 16 0, 0) m)
  used : ctx.usedCnt = (rest 16 m).length
  waits : ctx.buf.take ctx.usedCnt = rest 16 m
  bufLen : ctx.buf.length = 16

theorem Md2Rep.init : Md2Rep md2Init [] := by
  refine ⟨⟨?_, ?_, ?_, ?_⟩, ?_, ?_, ?_⟩ <;> rfl

/-- The second half of `md2_update`, on a context whose buffer is empty. -/
theorem md2UpdateBlocks_rep {ctx : Md2Ctx}
    (h : Md2At ctx x c) (hb : ctx.buf.length = 16)
    (hx : whole Md2Standard.hashBlock 16 (List.replicate 48 0) m =
      whole Md2Standard.hashBlock 16 x data)
    (hc : whole Md2Standard.checksumBytes 16 (List.replicate 16 0, 0) m =
      whole Md2Standard.checksumBytes 16 c data)
    (hr : rest 16 m = rest 16 data) : Md2Rep (md2UpdateBlocks ctx data) m := by
  obtain ⟨h1, h2, h3⟩ := md2Blocks_spec data.length le_rfl h
  have hlt : (rest 16 data).length < 16 := rest_lt 16 (by decide) data
  refine ⟨?_, ?_, ?_, ?_⟩
  · rw [hx, hc]
    exact h1.congr _ rfl rfl
  · simp only [md2UpdateBlocks, h2, hr]
  · have ht := take_copyInto (rest 16 data) (Nat.zero_le ctx.buf.length)
    rw [Nat.zero_add] at ht
    simp only [md2UpdateBlocks, h2, h3, hr]
    exact ht
  · simp only [md2UpdateBlocks, h2, h3]
    rw [length_copyInto (by omega)]
    exact hb

theorem Md2Rep.fill {ctx : Md2Ctx} (h : Md2Rep ctx m) (data : List UInt8)
    (hl : ctx.usedCnt + data.length = 16) :
    copyInto ctx.buf ctx.usedCnt data = rest 16 m ++ data ∧ (rest 16 m ++ data).length = 16 := by
  refine ⟨?_, ?_⟩
  · rw [copyInto_full (hl.trans h.bufLen.symm), h.waits]
  · rw [List.length_append, ← h.used, hl]

/-- **One call.** Appending a chunk, in each of the three regimes of `md2_update`. -/
theorem Md2Rep.update {ctx : Md2Ctx} (h : Md2Rep ctx m) (data : List UInt8) :
    Md2Rep (md2Update ctx (some data)).2 (m ++ data) := by
  have hn : 0 < 16 := by decide
  have hx := whole_append Md2Standard.hashBlock 16 hn (List.replicate 48 0) m data
  have hc := whole_append Md2Standard.checksumBytes 16 hn (List.replicate 16 0, 0) m data
  have hr := rest_append 16 hn m data
  have hu := h.used
  unfold md2Update
  by_cases h0 : ctx.usedCnt ≠ 0
  · simp only [if_pos h0]
    by_cases hlt : ctx.usedCnt + data.length < 16
    -- still partial: the chunk joins what waits
    · simp only [if_pos hlt]
      have hl : (rest 16 m ++ data).length < 16 := by
        rw [List.length_append]
        omega
      rw [whole_of_lt _ _ _ hl] at hx hc
      rw [rest_of_lt _ hl] at hr
      refine ⟨?_, ?_, ?_, ?_⟩
      · rw [hx, hc]
        exact h.hashed.congr _ rfl rfl
      · show ctx.usedCnt + data.length = _
        rw [hr, List.length_append, hu]
      · show (copyInto ctx.buf ctx.usedCnt data).take (ctx.usedCnt + data.length) = _
        rw [take_copyInto _ (by have := h.bufLen; omega), h.waits, hr]
      · show (copyInto ctx.buf ctx.usedCnt data).length = 16
        rw [length_copyInto (by have := h.bufLen; omega)]
        exact h.bufLen
    -- the chunk completes a block, which is hashed before the others
    · simp only [if_neg hlt]
      have hlu : ctx.usedCnt < 16 := by
        rw [hu]
        exact rest_lt 16 hn m
      have hk : ctx.usedCnt + (data.take (16 - ctx.usedCnt)).length = 16 := by
        rw [List.length_take]
        omega
      obtain ⟨hbuf, hblk⟩ := h.fill _ hk
      have hsplit : rest 16 m ++ data =
          (rest 16 m ++ data.take (16 - ctx.usedCnt)) ++ data.drop (16 - ctx.usedCnt) := by
        rw [List.append_assoc, List.take_append_drop]
      rw [hsplit] at hx hc hr
      rw [whole_block _ _ hn _ hblk] at hx hc
      rw [rest_block _ hn hblk] at hr
      rw [hbuf]
      have hat := (h.hashed.congr { ctx with buf := rest 16 m ++ data.take (16 - ctx.usedCnt) }
        rfl rfl).block hblk
      exact md2UpdateBlocks_rep (hat.congr _ rfl rfl) rfl hx hc hr
  -- nothing waits
  · simp only [if_neg h0]
    have hnil : rest 16 m = [] := List.length_eq_zero_iff.1 (by omega)
    rw [hnil, List.nil_append] at hx hc hr
    exact md2UpdateBlocks_rep h.hashed h.bufLen hx hc hr

theorem Md2Rep.updates {ctx : Md2Ctx} (h : Md2Rep ctx m)
    (chunks : List (List UInt8)) : Md2Rep (md2Updates ctx chunks) (m ++ chunks.flatten) := by
  induction chunks generalizing ctx m with
  | nil => simpa [md2Updates] using h
  | cons data chunks ih =>
    rw [List.flatten_cons, ← List.append_assoc]
    exact ih (h.update data)

/-- **The last call.** Padding and checksum are two more blocks. -/
theorem md2Final_rep {ctx : Md2Ctx} (h : Md2Rep ctx m) :
    (md2Final ctx).1 = Md2Standard.digest m := by
  have hn : 0 < 16 := by decide
  set p := 16 - ctx.usedCnt with hp
  have hlu : ctx.usedCnt < 16 := by
    rw [h.used]
    exact rest_lt 16 hn m
  have hpad : Md2Standard.pad m = m ++ List.replicate p (UInt8.ofNat p) := by
    rw [hp, h.used, length_rest]
    rfl
  obtain ⟨hbuf, hblk⟩ := h.fill (List.replicate p (UInt8.ofNat p)) (by
    rw [List.length_replicate]
    omega)
  -- the padded buffer
  have hx1 := whole_fill Md2Standard.hashBlock 16 hn (List.replicate 48 0) hblk
  have hc1 := whole_fill Md2Standard.checksumBytes 16 hn (List.replicate 16 0, 0) hblk
  have hr1 := rest_fill 16 hn hblk
  rw [← hpad] at hx1 hc1 hr1
  set block := rest 16 m ++ List.replicate p (UInt8.ofNat p) with hblock
  have hat1 := (h.hashed.congr { ctx with buf := block } rfl rfl).block hblk
  rw [← hx1, ← hc1] at hat1
  set ctx2 := md2ProcessBlock { ctx with buf := block } block with hctx2
  -- the checksum of the padded message
  have hsum : Md2Standard.checksum (Md2Standard.pad m) = ctx2.checksum := by
    rw [Md2Standard.checksum, hat1.sum]
  have hbuf2 : ctx2.buf = block := (md2ProcessBlock_rest _ _).2.2.1
  have hcopy : copyInto ctx2.buf 0 ctx2.checksum = ctx2.checksum := by
    rw [copyInto_full (by rw [hat1.sumLen, hbuf2, hblk]), List.take_zero, List.nil_append]
  have hx2 := whole_fill Md2Standard.hashBlock 16 hn (List.replicate 48 0) (a := Md2Standard.pad m)
    (b := ctx2.checksum) (by rw [hr1, List.nil_append, hat1.sumLen])
  rw [hr1, List.nil_append] at hx2
  have hat2 := (hat1.congr { ctx2 with usedCnt := 0, buf := ctx2.checksum }
    rfl rfl).block hat1.sumLen
  rw [Md2Standard.digest, hsum, hx2, hat2.hash]
  simp only [md2Final, ← hp, hbuf, ← hctx2, hcopy]

/-- **The digest does not depend on the chunks.** -/
theorem md2_chunks (chunks : List (List UInt8)) :
    (md2Final (md2Updates md2Init chunks)).1 = Md2Standard.digest chunks.flatten ∧
      md2 (some chunks.flatten) = some (Md2Standard.digest chunks.flatten) ∧
      ∀ signature : Vector UInt8 64,
        attestHash (chunks.flatten ++ signature.toList) = computeMd2Hash chunks.flatten := by
  have hone : md2Digest chunks.flatten = Md2Standard.digest chunks.flatten :=
    md2Final_rep (Md2Rep.init.update chunks.flatten)
  refine ⟨md2Final_rep (Md2Rep.init.updates chunks), ?_, ?_⟩
  · rw [md2, Option.map_some, hone]
  · intro signature
    have hl : (chunks.flatten ++ signature.toList).length - 64 = chunks.flatten.length := by
      rw [List.length_append, Vector.length_toList]
      omega
    rw [attestHash, hl, List.take_left, computeMd2Hash]

-- the digest of the three bytes "abc"
example : md2 (some [0x61, 0x62, 0x63]) = some [0xda, 0x85, 0x3b, 0x0d, 0x3f, 0x88, 0xd9, 0x9b,
    0x30, 0x28, 0x3a, 0x69, 0xe6, 0xde, 0xd6, 0xbb] := by decide +kernel

end Coffer
