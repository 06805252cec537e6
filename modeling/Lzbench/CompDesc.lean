import Lzbench.Codec

/-!
# The compressors and their aliases

`comp_desc` and `alias_desc` of `lzbench.h`.  A row names the functions of
`compressors.cpp` it is bound to; what these do is a parameter, `Wrappers`, in which a
function that was left out of the build is missing, as its `NULL` is.

## Main definitions

* `compTable`, `compDesc` — the rows, and the descriptors they stand for.
* `aliasDesc` — the aliases.
-/

namespace Lzbench

/-- `LIZARD_MIN_CLEVEL` and, with the Huffman coder, `LIZARD_MAX_CLEVEL`. -/
def lizardMinCLevel : ℤ := 10
def lizardMaxCLevel : ℤ := 49

/-- A row of `comp_desc`, with the names of its functions. -/
structure CompEntry where
  name : String
  version : String
  firstLevel : ℤ
  lastLevel : ℤ
  additionalParam : ℤ
  maxBlockSize : ℤ
  compress : String
  decompress : String
  init : Option String
  deinit : Option String
  deriving DecidableEq, Repr

/-- The rows of `comp_desc`. -/
def compTable : List CompEntry := [
  ⟨"memcpy", "", 0, 0, 0, 0,
    "lzbench_return_0", "lzbench_memcpy", none, none⟩,
  ⟨"blosclz", "2.0.0", 1, 9, 0, 64 * 1024,
    "lzbench_blosclz_compress", "lzbench_blosclz_decompress", none, none⟩,
  ⟨"brieflz", "1.3.0", 1, 9, 0, 0,
    "lzbench_brieflz_compress", "lzbench_brieflz_decompress",
    some "lzbench_brieflz_init", some "lzbench_brieflz_deinit"⟩,
  ⟨"brotli", "1.0.9", 0, 11, 0, 0,
    "lzbench_brotli_compress", "lzbench_brotli_decompress", none, none⟩,
  ⟨"brotli22", "1.0.9", 0, 11, 22, 0,
    "lzbench_brotli_compress", "lzbench_brotli_decompress", none, none⟩,
  ⟨"brotli24", "1.0.9", 0, 11, 24, 0,
    "lzbench_brotli_compress", "lzbench_brotli_decompress", none, none⟩,
  ⟨"bzip2", "1.0.8", 1, 9, 0, 0,
    "lzbench_bzip2_compress", "lzbench_bzip2_decompress", none, none⟩,
  ⟨"crush", "1.0", 0, 2, 0, 0,
    "lzbench_crush_compress", "lzbench_crush_decompress", none, none⟩,
  ⟨"csc", "2016-10-13", 1, 5, 0, 0,
    "lzbench_csc_compress", "lzbench_csc_decompress", none, none⟩,
  ⟨"density", "0.14.2", 1, 3, 0, 0,
    "lzbench_density_compress", "lzbench_density_decompress",
    some "lzbench_density_init", some "lzbench_density_deinit"⟩,
  ⟨"fastlz", "0.5.0", 1, 2, 0, 0,
    "lzbench_fastlz_compress", "lzbench_fastlz_decompress", none, none⟩,
  ⟨"fastlzma2", "1.0.1", 1, 10, 0, 0,
    "lzbench_fastlzma2_compress", "lzbench_fastlzma2_decompress", none, none⟩,
  ⟨"gipfeli", "2016-07-13", 0, 0, 0, 0,
    "lzbench_gipfeli_compress", "lzbench_gipfeli_decompress", none, none⟩,
  ⟨"glza", "0.8", 0, 0, 0, 0,
    "lzbench_glza_compress", "lzbench_glza_decompress", none, none⟩,
  ⟨"libdeflate", "1.6", 1, 12, 0, 0,
    "lzbench_libdeflate_compress", "lzbench_libdeflate_decompress", none, none⟩,
  ⟨"lz4", "1.9.3", 0, 0, 0, 0,
    "lzbench_lz4_compress", "lzbench_lz4_decompress", none, none⟩,
  ⟨"lz4fast", "1.9.3", 1, 99, 0, 0,
    "lzbench_lz4fast_compress", "lzbench_lz4_decompress", none, none⟩,
  ⟨"lz4hc", "1.9.3", 1, 12, 0, 0,
    "lzbench_lz4hc_compress", "lzbench_lz4_decompress", none, none⟩,
  ⟨"lizard", "1.0", lizardMinCLevel, lizardMaxCLevel, 0, 0,
    "lzbench_lizard_compress", "lzbench_lizard_decompress", none, none⟩,
  ⟨"lzf", "3.6", 0, 1, 0, 0,
    "lzbench_lzf_compress", "lzbench_lzf_decompress", none, none⟩,
  ⟨"lzfse", "2017-03-08", 0, 0, 0, 0,
    "lzbench_lzfse_compress", "lzbench_lzfse_decompress",
    some "lzbench_lzfse_init", some "lzbench_lzfse_deinit"⟩,
  ⟨"lzg", "1.0.10", 1, 9, 0, 0,
    "lzbench_lzg_compress", "lzbench_lzg_decompress", none, none⟩,
  ⟨"lzham", "1.0 -d26", 0, 4, 0, 0,
    "lzbench_lzham_compress", "lzbench_lzham_decompress", none, none⟩,
  ⟨"lzham22", "1.0", 0, 4, 22, 0,
    "lzbench_lzham_compress", "lzbench_lzham_decompress", none, none⟩,
  ⟨"lzham24", "1.0", 0, 4, 24, 0,
    "lzbench_lzham_compress", "lzbench_lzham_decompress", none, none⟩,
  ⟨"lzjb", "2010", 0, 0, 0, 0,
    "lzbench_lzjb_compress", "lzbench_lzjb_decompress", none, none⟩,
  ⟨"lzlib", "1.12-rc2", 0, 9, 0, 0,
    "lzbench_lzlib_compress", "lzbench_lzlib_decompress", none, none⟩,
  ⟨"lzma", "19.00", 0, 9, 0, 0,
    "lzbench_lzma_compress", "lzbench_lzma_decompress", none, none⟩,
  ⟨"lzmat", "1.01", 0, 0, 0, 0,
    "lzbench_lzmat_compress", "lzbench_lzmat_decompress", none, none⟩,
  ⟨"lzo1", "2.10", 1, 1, 0, 0,
    "lzbench_lzo1_compress", "lzbench_lzo1_decompress",
    some "lzbench_lzo_init", some "lzbench_lzo_deinit"⟩,
  ⟨"lzo1a", "2.10", 1, 1, 0, 0,
    "lzbench_lzo1a_compress", "lzbench_lzo1a_decompress",
    some "lzbench_lzo_init", some "lzbench_lzo_deinit"⟩,
  ⟨"lzo1b", "2.10", 1, 1, 0, 0,
    "lzbench_lzo1b_compress", "lzbench_lzo1b_decompress",
    some "lzbench_lzo_init", some "lzbench_lzo_deinit"⟩,
  ⟨"lzo1c", "2.10", 1, 1, 0, 0,
    "lzbench_lzo1c_compress", "lzbench_lzo1c_decompress",
    some "lzbench_lzo_init", some "lzbench_lzo_deinit"⟩,
  ⟨"lzo1f", "2.10", 1, 1, 0, 0,
    "lzbench_lzo1f_compress", "lzbench_lzo1f_decompress",
    some "lzbench_lzo_init", some "lzbench_lzo_deinit"⟩,
  ⟨"lzo1x", "2.10", 1, 1, 0, 0,
    "lzbench_lzo1x_compress", "lzbench_lzo1x_decompress",
    some "lzbench_lzo_init", some "lzbench_lzo_deinit"⟩,
  ⟨"lzo1y", "2.10", 1, 1, 0, 0,
    "lzbench_lzo1y_compress", "lzbench_lzo1y_decompress",
    some "lzbench_lzo_init", some "lzbench_lzo_deinit"⟩,
  ⟨"lzo1z", "2.10", 999, 999, 0, 0,
    "lzbench_lzo1z_compress", "lzbench_lzo1z_decompress",
    some "lzbench_lzo_init", some "lzbench_lzo_deinit"⟩,
  ⟨"lzo2a", "2.10", 999, 999, 0, 0,
    "lzbench_lzo2a_compress", "lzbench_lzo2a_decompress",
    some "lzbench_lzo_init", some "lzbench_lzo_deinit"⟩,
  ⟨"lzrw", "15-Jul-1991", 1, 5, 0, 0,
    "lzbench_lzrw_compress", "lzbench_lzrw_decompress",
    some "lzbench_lzrw_init", some "lzbench_lzrw_deinit"⟩,
  ⟨"lzsse2", "2019-04-18", 0, 17, 0, 0,
    "lzbench_lzsse2_compress", "lzbench_lzsse2_decompress",
    some "lzbench_lzsse2_init", some "lzbench_lzsse2_deinit"⟩,
  ⟨"lzsse4", "2019-04-18", 0, 17, 0, 0,
    "lzbench_lzsse4_compress", "lzbench_lzsse4_decompress",
    some "lzbench_lzsse4_init", some "lzbench_lzsse4_deinit"⟩,
  ⟨"lzsse4fast", "2019-04-18", 0, 0, 0, 0,
    "lzbench_lzsse4fast_compress", "lzbench_lzsse4_decompress",
    some "lzbench_lzsse4fast_init", some "lzbench_lzsse4fast_deinit"⟩,
  ⟨"lzsse8", "2019-04-18", 0, 17, 0, 0,
    "lzbench_lzsse8_compress", "lzbench_lzsse8_decompress",
    some "lzbench_lzsse8_init", some "lzbench_lzsse8_deinit"⟩,
  ⟨"lzsse8fast", "2019-04-18", 0, 0, 0, 0,
    "lzbench_lzsse8fast_compress", "lzbench_lzsse8_decompress",
    some "lzbench_lzsse8fast_init", some "lzbench_lzsse8fast_deinit"⟩,
  ⟨"lzvn", "2017-03-08", 0, 0, 0, 0,
    "lzbench_lzvn_compress", "lzbench_lzvn_decompress",
    some "lzbench_lzvn_init", some "lzbench_lzvn_deinit"⟩,
  ⟨"pithy", "2011-12-24", 0, 9, 0, 0,
    "lzbench_pithy_compress", "lzbench_pithy_decompress", none, none⟩,
  ⟨"quicklz", "1.5.0", 1, 3, 0, 0,
    "lzbench_quicklz_compress", "lzbench_quicklz_decompress", none, none⟩,
  ⟨"shrinker", "0.1", 0, 0, 0, 128 * 2 ^ 20,
    "lzbench_shrinker_compress", "lzbench_shrinker_decompress", none, none⟩,
  ⟨"slz_deflate", "1.2.0", 1, 3, 2, 0,
    "lzbench_slz_compress", "lzbench_slz_decompress", none, none⟩,
  ⟨"slz_gzip", "1.2.0", 1, 3, 1, 0,
    "lzbench_slz_compress", "lzbench_slz_decompress", none, none⟩,
  ⟨"slz_zlib", "1.2.0", 1, 3, 0, 0,
    "lzbench_slz_compress", "lzbench_slz_decompress", none, none⟩,
  ⟨"snappy", "2020-07-11", 0, 0, 0, 0,
    "lzbench_snappy_compress", "lzbench_snappy_decompress", none, none⟩,
  ⟨"tornado", "0.6a", 1, 16, 0, 0,
    "lzbench_tornado_compress", "lzbench_tornado_decompress", none, none⟩,
  ⟨"ucl_nrv2b", "1.03", 1, 9, 0, 0,
    "lzbench_ucl_nrv2b_compress", "lzbench_ucl_nrv2b_decompress", none, none⟩,
  ⟨"ucl_nrv2d", "1.03", 1, 9, 0, 0,
    "lzbench_ucl_nrv2d_compress", "lzbench_ucl_nrv2d_decompress", none, none⟩,
  ⟨"ucl_nrv2e", "1.03", 1, 9, 0, 0,
    "lzbench_ucl_nrv2e_compress", "lzbench_ucl_nrv2e_decompress", none, none⟩,
  ⟨"wflz", "2015-09-16", 0, 0, 0, 0,
    "lzbench_wflz_compress", "lzbench_wflz_decompress",
    some "lzbench_wflz_init", some "lzbench_wflz_deinit"⟩,
  ⟨"xpack", "2016-06-02", 1, 9, 0, 2 ^ 19,
    "lzbench_xpack_compress", "lzbench_xpack_decompress",
    some "lzbench_xpack_init", some "lzbench_xpack_deinit"⟩,
  ⟨"xz", "5.2.5", 0, 9, 0, 0,
    "lzbench_xz_compress", "lzbench_xz_decompress", none, none⟩,
  ⟨"yalz77", "2015-09-19", 1, 12, 0, 0,
    "lzbench_yalz77_compress", "lzbench_yalz77_decompress", none, none⟩,
  ⟨"yappy", "2014-03-22", 0, 99, 0, 0,
    "lzbench_yappy_compress", "lzbench_yappy_decompress", some "lzbench_yappy_init", none⟩,
  ⟨"zlib", "1.2.11", 1, 9, 0, 0,
    "lzbench_zlib_compress", "lzbench_zlib_decompress", none, none⟩,
  ⟨"zling", "2018-10-12", 0, 4, 0, 0,
    "lzbench_zling_compress", "lzbench_zling_decompress", none, none⟩,
  ⟨"zstd", "1.4.8", 1, 22, 0, 0,
    "lzbench_zstd_compress", "lzbench_zstd_decompress",
    some "lzbench_zstd_init", some "lzbench_zstd_deinit"⟩,
  ⟨"zstd_fast", "1.4.8", -5, -1, 0, 0,
    "lzbench_zstd_compress", "lzbench_zstd_decompress",
    some "lzbench_zstd_init", some "lzbench_zstd_deinit"⟩,
  ⟨"zstd22", "1.4.8", 1, 22, 22, 0,
    "lzbench_zstd_compress", "lzbench_zstd_decompress",
    some "lzbench_zstd_init", some "lzbench_zstd_deinit"⟩,
  ⟨"zstd24", "1.4.8", 1, 22, 24, 0,
    "lzbench_zstd_compress", "lzbench_zstd_decompress",
    some "lzbench_zstd_init", some "lzbench_zstd_deinit"⟩,
  ⟨"zstdLDM", "1.4.8", 1, 22, 0, 0,
    "lzbench_zstd_LDM_compress", "lzbench_zstd_decompress",
    some "lzbench_zstd_LDM_init", some "lzbench_zstd_deinit"⟩,
  ⟨"zstd22LDM", "1.4.8", 1, 22, 22, 0,
    "lzbench_zstd_LDM_compress", "lzbench_zstd_decompress",
    some "lzbench_zstd_LDM_init", some "lzbench_zstd_deinit"⟩,
  ⟨"zstd24LDM", "1.4.8", 1, 22, 24, 0,
    "lzbench_zstd_LDM_compress", "lzbench_zstd_decompress",
    some "lzbench_zstd_LDM_init", some "lzbench_zstd_deinit"⟩,
  ⟨"nakamichi", "okamigan", 0, 0, 0, 0,
    "lzbench_nakamichi_compress", "lzbench_nakamichi_decompress", none, none⟩]

/-- The functions of `compressors.cpp`, by name. -/
structure Wrappers (σ : Type) where
  code : String → Option (CompressFunc σ)
  init : String → Option (ℕ → ℕ → ℕ → σ → ℕ × σ)
  deinit : String → Option (ℕ → σ → σ)

/-- The descriptor of a row. -/
def CompEntry.desc {σ : Type} (wrappers : Wrappers σ) (e : CompEntry) : CompressorDesc σ where
  name := e.name
  version := e.version
  firstLevel := e.firstLevel
  lastLevel := e.lastLevel
  additionalParam := e.additionalParam
  maxBlockSize := e.maxBlockSize
  compress := wrappers.code e.compress
  decompress := wrappers.code e.decompress
  init := e.init.bind wrappers.init
  deinit := e.deinit.bind wrappers.deinit

/-- `comp_desc`. -/
def compDesc {σ : Type} (wrappers : Wrappers σ) : List (CompressorDesc σ) :=
  compTable.map (CompEntry.desc wrappers)

/-- The two functions of a descriptor, where all rows of its name have the same. -/
theorem compDesc_code {σ : Type} {wrappers : Wrappers σ} {desc : CompressorDesc σ}
    (hdesc : desc ∈ compDesc wrappers) {compress decompress : String}
    (hrow : ∀ e ∈ compTable, e.name = desc.name →
      e.compress = compress ∧ e.decompress = decompress) :
    desc.compress = wrappers.code compress ∧ desc.decompress = wrappers.code decompress := by
  obtain ⟨e, he, rfl⟩ := List.mem_map.mp hdesc
  obtain ⟨hcompress, hdecompress⟩ := hrow e he rfl
  exact ⟨congrArg wrappers.code hcompress, congrArg wrappers.code hdecompress⟩

/-- `alias_desc_t`. -/
structure AliasDesc where
  name : String
  params : String
  deriving DecidableEq, Repr

/-- `alias_desc`, on processors other than ARM. -/
def aliasDesc : List AliasDesc := [
  ⟨"fast",
    "density/fastlz/lizard,10,11,12,13,14/lz4/lz4fast,3,17/lzf/lzfse/lzjb/lzo1b,1/lzo1c,1/" ++
      "lzo1f,1/lzo1x,1/lzo1y,1/lzrw,1,3,4,5/lzsse4fast/lzsse8fast/lzvn/pithy,0,3,6,9/" ++
      "quicklz,1,2/shrinker/snappy/tornado,1,2,3/zstd,1,2,3,4,5"⟩,
  ⟨"all",
    "blosclz,1,3,6,9/brieflz,1,3,6,8/brotli,0,2,5,8,11/bzip2,1,5,9/crush,0,1,2/csc,1,3,5/" ++
      "density,1,2,3/fastlz,1,2/fastlzma2,1,3,5,8,10/gipfeli/libdeflate,1,3,6,9,12/" ++
      "lizard,10,12,15,19,20,22,25,29,30,32,35,39,40,42,45,49/lz4/lz4fast,3,17/" ++
      "lz4hc,1,4,9,12/lzf,0,1/lzfse/lzg,1,4,6,8/lzham,0,1/lzjb/lzlib,0,3,6,9/lzma,0,2,4,5,9/" ++
      "lzo1/lzo1a/lzo1b,1,3,6,9,99,999/lzo1c,1,3,6,9,99,999/lzo1f/lzo1x/lzo1y/lzo1z/lzo2a/" ++
      "lzrw,1,3,4,5/lzsse2,1,6,12,16/lzsse4,1,6,12,16/lzsse8,1,6,12,16/lzvn/pithy,0,3,6,9/" ++
      "quicklz,1,2,3/slz_gzip/snappy/tornado,1,2,3,4,5,6,7,10,13,16/ucl_nrv2b,1,6,9/" ++
      "ucl_nrv2d,1,6,9/ucl_nrv2e,1,6,9/xpack,1,6,9/xz,0,3,6,9/yalz77,1,4,8,12/yappy,1,10,100/" ++
      "zlib,1,6,9/zling,0,1,2,3,4/zstd,1,2,5,8,11,15,18,22/shrinker/wflz/lzmat"⟩,
  ⟨"opt",
    "brotli,6,7,8,9,10,11/csc,1,2,3,4,5/lzham,0,1,2,3,4/lzlib,0,1,2,3,4,5,6,7,8,9/" ++
      "lzma,0,1,2,3,4,5,6,7,8,9/tornado,5,6,7,8,9,10,11,12,13,14,15,16/xz,1,2,3,4,5,6,7,8,9/" ++
      "zstd,18,19,20,21,22"⟩,
  ⟨"lzo1", "lzo1,1,99"⟩,
  ⟨"lzo1a", "lzo1a,1,99"⟩,
  ⟨"lzo1b", "lzo1b,1,2,3,4,5,6,7,8,9,99,999"⟩,
  ⟨"lzo1c", "lzo1c,1,2,3,4,5,6,7,8,9,99,999"⟩,
  ⟨"lzo1f", "lzo1f,1,999"⟩,
  ⟨"lzo1x", "lzo1x,1,11,12,15,999"⟩,
  ⟨"lzo1y", "lzo1y,1,999"⟩,
  ⟨"lzo", "lzo1/lzo1a/lzo1b/lzo1c/lzo1f/lzo1x/lzo1y/lzo1z/lzo2a"⟩,
  ⟨"ucl", "ucl_nrv2b/ucl_nrv2d/ucl_nrv2e"⟩]

/-! ## Facts of the tables -/

/-- No two names are equal without regard to case. -/
theorem compTable_nodup : (compTable.map fun e => e.name.toList.map Char.toLower).Nodup := by
  decide +kernel

/-- No name is empty, and none has a separator of the encoder list in it. -/
theorem compTable_names : ∀ e ∈ compTable, e.name.toList.map Char.toLower ≠ [] ∧
    '/' ∉ e.name.toList.map Char.toLower ∧ ',' ∉ e.name.toList.map Char.toLower := by
  decide +kernel

theorem aliasDesc_names : ∀ a ∈ aliasDesc, ',' ∉ a.name.toList.map Char.toLower := by
  decide +kernel

end Lzbench
