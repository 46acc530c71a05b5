/-!
# Listings of the general categories

For each general category but "not assigned", the ends of the ranges of code points listed under it.
The listings cover the commonly used blocks. A code point may stand in several of them: the category
that comes first has it.
-/

namespace FiberLex.Category.Listing

/-- The ends of the ranges listed under Lu, uppercase letter. -/
def uppercaseLetter : List Nat := [
  0x41, 0x5A, 0xC0, 0xD6, 0xD8, 0xDE, 0x100, 0x100, 0x102, 0x102, 0x104, 0x104, 0x106, 0x106,
  0x108, 0x108, 0x10A, 0x10A, 0x10C, 0x10C, 0x10E, 0x10E, 0x110, 0x110, 0x112, 0x112, 0x114,
  0x114, 0x116, 0x116, 0x118, 0x118, 0x11A, 0x11A, 0x11C, 0x11C, 0x11E, 0x11E, 0x120, 0x120,
  0x122, 0x122, 0x124, 0x124, 0x126, 0x126, 0x128, 0x128, 0x12A, 0x12A, 0x12C, 0x12C, 0x12E,
  0x12E, 0x130, 0x130, 0x132, 0x132, 0x134, 0x134, 0x136, 0x136, 0x139, 0x139, 0x13B, 0x13B,
  0x13D, 0x13D, 0x13F, 0x13F, 0x141, 0x141, 0x143, 0x143, 0x145, 0x145, 0x147, 0x147, 0x14A,
  0x14A, 0x14C, 0x14C, 0x14E, 0x14E, 0x150, 0x150, 0x152, 0x152, 0x154, 0x154, 0x156, 0x156,
  0x158, 0x158, 0x15A, 0x15A, 0x15C, 0x15C, 0x15E, 0x15E, 0x160, 0x160, 0x162, 0x162, 0x164,
  0x164, 0x166, 0x166, 0x168, 0x168, 0x16A, 0x16A, 0x16C, 0x16C, 0x16E, 0x16E, 0x170, 0x170,
  0x172, 0x172, 0x174, 0x174, 0x176, 0x176, 0x178, 0x179, 0x17B, 0x17B, 0x17D, 0x17D, 0x391,
  0x3A1, 0x3A3, 0x3A9, 0x410, 0x42F, 0xFF21, 0xFF3A, 0x1D400, 0x1D419, 0x1D434, 0x1D44D, 0x1D468,
  0x1D481, 0x1D49C, 0x1D4B9, 0x1D4D0, 0x1D4E9, 0x1D504, 0x1D51C, 0x1D538, 0x1D550, 0x1D56C,
  0x1D585, 0x1D5A0, 0x1D5B9, 0x1D5D4, 0x1D5ED, 0x1D608, 0x1D621, 0x1D63C, 0x1D655, 0x1D670,
  0x1D689, 0x1D6A8, 0x1D6C0, 0x1D6E2, 0x1D6FA, 0x1D71C, 0x1D734, 0x1D756, 0x1D76E, 0x1D790,
  0x1D7A8]

/-- The ends of the ranges listed under Ll, lowercase letter. -/
def lowercaseLetter : List Nat := [
  0x61, 0x7A, 0xDF, 0xF6, 0xF8, 0xFF, 0x101, 0x101, 0x103, 0x103, 0x105, 0x105, 0x107, 0x107,
  0x109, 0x109, 0x10B, 0x10B, 0x10D, 0x10D, 0x10F, 0x10F, 0x111, 0x111, 0x113, 0x113, 0x115,
  0x115, 0x117, 0x117, 0x119, 0x119, 0x11B, 0x11B, 0x11D, 0x11D, 0x11F, 0x11F, 0x121, 0x121,
  0x123, 0x123, 0x125, 0x125, 0x127, 0x127, 0x129, 0x129, 0x12B, 0x12B, 0x12D, 0x12D, 0x12F,
  0x12F, 0x131, 0x131, 0x133, 0x133, 0x135, 0x135, 0x137, 0x138, 0x13A, 0x13A, 0x13C, 0x13C,
  0x13E, 0x13E, 0x140, 0x140, 0x142, 0x142, 0x144, 0x144, 0x146, 0x146, 0x148, 0x149, 0x14B,
  0x14B, 0x14D, 0x14D, 0x14F, 0x14F, 0x151, 0x151, 0x153, 0x153, 0x155, 0x155, 0x157, 0x157,
  0x159, 0x159, 0x15B, 0x15B, 0x15D, 0x15D, 0x15F, 0x15F, 0x161, 0x161, 0x163, 0x163, 0x165,
  0x165, 0x167, 0x167, 0x169, 0x169, 0x16B, 0x16B, 0x16D, 0x16D, 0x16F, 0x16F, 0x171, 0x171,
  0x173, 0x173, 0x175, 0x175, 0x177, 0x177, 0x17A, 0x17A, 0x17C, 0x17C, 0x17E, 0x180, 0x3B1,
  0x3C9, 0x430, 0x44F, 0xFF41, 0xFF5A, 0x1D41A, 0x1D433, 0x1D44E, 0x1D467, 0x1D482, 0x1D49B,
  0x1D4B6, 0x1D4CF, 0x1D4EA, 0x1D503, 0x1D51E, 0x1D537, 0x1D552, 0x1D56B, 0x1D586, 0x1D59F,
  0x1D5BA, 0x1D5D3, 0x1D5EE, 0x1D607, 0x1D622, 0x1D63B, 0x1D656, 0x1D66F, 0x1D68A, 0x1D6A3,
  0x1D6C2, 0x1D6DA, 0x1D6FC, 0x1D714, 0x1D736, 0x1D74E, 0x1D770, 0x1D788, 0x1D7AA, 0x1D7CB]

/-- The ends of the ranges listed under Lt, titlecase letter. -/
def titlecaseLetter : List Nat := [
  0x1C5, 0x1C5, 0x1C8, 0x1C8, 0x1CB, 0x1CB, 0x1F2, 0x1F2, 0x1F88, 0x1F8F, 0x1F98, 0x1F9F, 0x1FA8,
  0x1FAF, 0x1FBC, 0x1FBC, 0x1FCC, 0x1FCC, 0x1FFC, 0x1FFC]

/-- The ends of the ranges listed under Lm, modifier letter. -/
def modifierLetter : List Nat := [
  0x2B0, 0x2C1, 0x2C6, 0x2D1, 0x2E0, 0x2E4, 0x2EC, 0x2EC, 0x2EE, 0x2EE, 0x374, 0x374, 0x37A,
  0x37A, 0x559, 0x559, 0x640, 0x640, 0x6E5, 0x6E6, 0x7F4, 0x7F5, 0x7FA, 0x7FA, 0x971, 0x971,
  0x17D7, 0x17D7, 0x1843, 0x1843, 0x1AA7, 0x1AA7, 0x1C78, 0x1C7D, 0x1D2C, 0x1D6A, 0x1D78, 0x1D78,
  0x1D9B, 0x1DBF, 0x2071, 0x2071, 0x207F, 0x207F, 0x2090, 0x209C, 0x2C7C, 0x2C7D, 0xA770, 0xA770,
  0xA7F8, 0xA7F9, 0xFF9E, 0xFF9F, 0x30FC, 0x30FC, 0x309D, 0x309E, 0x30FD, 0x30FE]

/-- The ends of the ranges listed under Lo, other letter. -/
def otherLetter : List Nat := [
  0xAA, 0xAA, 0xBA, 0xBA, 0x1BB, 0x1BB, 0x1C0, 0x1C3, 0x294, 0x294, 0x620, 0x63F, 0x641, 0x64A,
  0x66E, 0x66F, 0x671, 0x6D3, 0x6D5, 0x6D5, 0x6EE, 0x6EF, 0x6FA, 0x6FC, 0x6FF, 0x6FF, 0x5D0,
  0x5EA, 0x5EF, 0x5F2, 0x904, 0x939, 0x93D, 0x93D, 0x950, 0x950, 0x958, 0x961, 0x972, 0x980,
  0x4E00, 0x9FFF, 0x3400, 0x4DBF, 0x20000, 0x2A6FF, 0x2A700, 0x2CEAF, 0x3041, 0x3096, 0x30A1,
  0x30FA, 0x30FC, 0x30FF, 0xAC00, 0xD7A3, 0xA000, 0xA48C]

/-- The ends of the ranges listed under Mn, nonspacing mark. -/
def nonspacingMark : List Nat := [
  0x300, 0x36F, 0x483, 0x489, 0x591, 0x5BD, 0x5BF, 0x5BF, 0x5C1, 0x5C2, 0x5C4, 0x5C5, 0x5C7,
  0x5C7, 0x610, 0x61A, 0x64B, 0x65F, 0x670, 0x670, 0x6D6, 0x6DC, 0x6DF, 0x6E4, 0x6E7, 0x6E8,
  0x6EA, 0x6ED, 0x711, 0x711, 0x730, 0x74A, 0x7A6, 0x7B0, 0x901, 0x902, 0x93C, 0x93C, 0x941,
  0x948, 0x94D, 0x94D, 0x951, 0x957, 0x962, 0x963, 0x981, 0x981, 0x9BC, 0x9BC, 0x9C1, 0x9C4,
  0x9CD, 0x9CD, 0x9E2, 0x9E3, 0x20D0, 0x20FF, 0x1D165, 0x1D169, 0x1D16D, 0x1D172, 0x1D17B,
  0x1D182, 0x1D185, 0x1D18B, 0x1D1AA, 0x1D1AD]

/-- The ends of the ranges listed under Mc, spacing mark. -/
def spacingMark : List Nat := [
  0x903, 0x903, 0x93B, 0x93B, 0x93E, 0x940, 0x949, 0x94C, 0x94E, 0x94F, 0x982, 0x983, 0x9BE,
  0x9C0, 0x9C7, 0x9C8, 0x9CB, 0x9CC, 0x9D7, 0x9D7, 0xA03, 0xA03, 0xA3E, 0xA40, 0xA83, 0xA83,
  0xABE, 0xAC0, 0xAC9, 0xAC9, 0xACB, 0xACC, 0xB02, 0xB03, 0xB3E, 0xB3E, 0xB40, 0xB40, 0xB47,
  0xB48, 0xB4B, 0xB4C, 0xB57, 0xB57, 0xBBE, 0xBBF, 0xBC1, 0xBC2, 0xBC6, 0xBC8, 0xBCA, 0xBCC,
  0xBD7, 0xBD7, 0x1D165, 0x1D166, 0x1D16D, 0x1D172]

/-- The ends of the ranges listed under Me, enclosing mark. -/
def enclosingMark : List Nat := [
  0x488, 0x489, 0x1ABE, 0x1ABE, 0x20DD, 0x20E0, 0x20E2, 0x20E4, 0xA670, 0xA672]

/-- The ends of the ranges listed under Nd, decimal number. -/
def decimalNumber : List Nat := [
  0x30, 0x39, 0x660, 0x669, 0x6F0, 0x6F9, 0x7C0, 0x7C9, 0x966, 0x96F, 0x9E6, 0x9EF, 0xA66, 0xA6F,
  0xAE6, 0xAEF, 0xB66, 0xB6F, 0xBE6, 0xBEF, 0xC66, 0xC6F, 0xCE6, 0xCEF, 0xD66, 0xD6F, 0xDE6,
  0xDEF, 0xE50, 0xE59, 0xED0, 0xED9, 0xF20, 0xF29, 0x1040, 0x1049, 0x1090, 0x1099, 0x17E0,
  0x17E9, 0x1810, 0x1819, 0x1946, 0x194F, 0x19D0, 0x19D9, 0x1A80, 0x1A89, 0x1A90, 0x1A99, 0x1B50,
  0x1B59, 0x1BB0, 0x1BB9, 0x1C40, 0x1C49, 0x1C50, 0x1C59, 0xA620, 0xA629, 0xA8D0, 0xA8D9, 0xA900,
  0xA909, 0xA9D0, 0xA9D9, 0xA9F0, 0xA9F9, 0xAA50, 0xAA59, 0xABF0, 0xABF9, 0xFF10, 0xFF19,
  0x1D7CE, 0x1D7FF]

/-- The ends of the ranges listed under Nl, letter number. -/
def letterNumber : List Nat := [
  0x16EE, 0x16F0, 0x2160, 0x2182, 0x2185, 0x2188, 0x3007, 0x3007, 0x3021, 0x3029, 0x3038, 0x303A,
  0xA6E6, 0xA6EF, 0x10341, 0x10341, 0x1034A, 0x1034A]

/-- The ends of the ranges listed under No, other number. -/
def otherNumber : List Nat := [
  0xB2, 0xB3, 0xB9, 0xB9, 0xBC, 0xBE, 0x9F4, 0x9F9, 0xB72, 0xB77, 0xBF0, 0xBF2, 0xC78, 0xC7E,
  0xD58, 0xD5E, 0xD70, 0xD78, 0xF2A, 0xF33, 0x1369, 0x137C, 0x17F0, 0x17F9, 0x19DA, 0x19DA,
  0x2070, 0x2070, 0x2074, 0x2079, 0x2080, 0x2089, 0x2150, 0x215F, 0x2189, 0x2189, 0x2460, 0x249B,
  0x24EA, 0x24FF, 0x2776, 0x2793, 0x2CFD, 0x2CFD, 0x3192, 0x3195, 0x3220, 0x3229, 0x3248, 0x324F,
  0x3251, 0x325F, 0x3280, 0x3289, 0x32B1, 0x32BF, 0x10320, 0x10323, 0x10107, 0x10133]

/-- The ends of the ranges listed under Zs, space separator. -/
def spaceSeparator : List Nat := [
  0x20, 0x20, 0xA0, 0xA0, 0x1680, 0x1680, 0x2000, 0x200A, 0x202F, 0x202F, 0x205F, 0x205F, 0x3000,
  0x3000]

/-- The ends of the ranges listed under Zl, line separator. -/
def lineSeparator : List Nat := [
  0x2028, 0x2028]

/-- The ends of the ranges listed under Zp, paragraph separator. -/
def paragraphSeparator : List Nat := [
  0x2029, 0x2029]

/-- The ends of the ranges listed under Cc, control. -/
def control : List Nat := [
  0x0, 0x1F, 0x7F, 0x9F]

/-- The ends of the ranges listed under Cf, format. -/
def format : List Nat := [
  0xAD, 0xAD, 0x600, 0x605, 0x61C, 0x61C, 0x6DD, 0x6DD, 0x70F, 0x70F, 0x8E2, 0x8E2, 0x180E,
  0x180E, 0x200B, 0x200F, 0x202A, 0x202E, 0x2060, 0x2064, 0x2066, 0x206F, 0xFEFF, 0xFEFF, 0xFFF9,
  0xFFFB, 0xE0001, 0xE0001, 0xE0020, 0xE007F]

/-- The ends of the ranges listed under Cs, surrogate. -/
def surrogate : List Nat := [
  0xD800, 0xDFFF]

/-- The ends of the ranges listed under Co, private use. -/
def privateUse : List Nat := [
  0xE000, 0xF8FF, 0xF0000, 0xFFFFD, 0x100000, 0x10FFFD]

/-- The ends of the ranges listed under Pc, connector punctuation. -/
def connectorPunctuation : List Nat := [
  0x5F, 0x5F, 0x203F, 0x2040, 0x2054, 0x2054, 0xFE33, 0xFE34, 0xFE4D, 0xFE4F, 0xFF3F, 0xFF3F]

/-- The ends of the ranges listed under Pd, dash punctuation. -/
def dashPunctuation : List Nat := [
  0x2D, 0x2D, 0x58A, 0x58A, 0x5BE, 0x5BE, 0x1400, 0x1400, 0x1806, 0x1806, 0x2010, 0x2015, 0x2E17,
  0x2E17, 0x2E1A, 0x2E1A, 0x2E3A, 0x2E3B, 0x2E40, 0x2E40, 0x301C, 0x301C, 0x3030, 0x3030, 0x30A0,
  0x30A0, 0xFE31, 0xFE32, 0xFE58, 0xFE58, 0xFE63, 0xFE63, 0xFF0D, 0xFF0D]

/-- The ends of the ranges listed under Ps, open punctuation. -/
def openPunctuation : List Nat := [
  0x28, 0x28, 0x5B, 0x5B, 0x7B, 0x7B, 0xF3A, 0xF3A, 0xF3C, 0xF3C, 0x169B, 0x169B, 0x201A, 0x201A,
  0x201E, 0x201E, 0x2045, 0x2045, 0x207D, 0x207D, 0x208D, 0x208D, 0x2308, 0x2308, 0x230A, 0x230A,
  0x2329, 0x2329, 0x2768, 0x2768, 0x276A, 0x276A, 0x276C, 0x276C, 0x276E, 0x276E, 0x2770, 0x2770,
  0x2772, 0x2772, 0x2774, 0x2774, 0x27C5, 0x27C5, 0x27E6, 0x27E6, 0x27E8, 0x27E8, 0x27EA, 0x27EA,
  0x27EC, 0x27EC, 0x27EE, 0x27EE, 0x2983, 0x2983, 0x2985, 0x2985, 0x2987, 0x2987, 0x2989, 0x2989,
  0x298B, 0x298B, 0x298D, 0x298D, 0x298F, 0x298F, 0x2991, 0x2991, 0x2993, 0x2993, 0x2995, 0x2995,
  0x2997, 0x2997, 0x29D8, 0x29D8, 0x29DA, 0x29DA, 0x29FC, 0x29FC, 0x2E22, 0x2E22, 0x2E24, 0x2E24,
  0x2E26, 0x2E26, 0x2E28, 0x2E28, 0x3008, 0x3008, 0x300A, 0x300A, 0x300C, 0x300C, 0x300E, 0x300E,
  0x3010, 0x3010, 0x3014, 0x3014, 0x3016, 0x3016, 0x3018, 0x3018, 0x301A, 0x301A, 0x301D, 0x301D,
  0xFD3F, 0xFD3F, 0xFE17, 0xFE17, 0xFE35, 0xFE35, 0xFE37, 0xFE37, 0xFE39, 0xFE39, 0xFE3B, 0xFE3B,
  0xFE3D, 0xFE3D, 0xFE3F, 0xFE3F, 0xFE41, 0xFE41, 0xFE43, 0xFE43, 0xFE47, 0xFE47, 0xFE59, 0xFE59,
  0xFE5B, 0xFE5B, 0xFE5D, 0xFE5D, 0xFF08, 0xFF08, 0xFF3B, 0xFF3B, 0xFF5B, 0xFF5B, 0xFF5F, 0xFF5F,
  0xFF62, 0xFF62]

/-- The ends of the ranges listed under Pe, close punctuation. -/
def closePunctuation : List Nat := [
  0x29, 0x29, 0x5D, 0x5D, 0x7D, 0x7D, 0xF3B, 0xF3B, 0xF3D, 0xF3D, 0x169C, 0x169C, 0x2046, 0x2046,
  0x207E, 0x207E, 0x208E, 0x208E, 0x2309, 0x2309, 0x230B, 0x230B, 0x232A, 0x232A, 0x2769, 0x2769,
  0x276B, 0x276B, 0x276D, 0x276D, 0x276F, 0x276F, 0x2771, 0x2771, 0x2773, 0x2773, 0x2775, 0x2775,
  0x27C6, 0x27C6, 0x27E7, 0x27E7, 0x27E9, 0x27E9, 0x27EB, 0x27EB, 0x27ED, 0x27ED, 0x27EF, 0x27EF,
  0x2984, 0x2984, 0x2986, 0x2986, 0x2988, 0x2988, 0x298A, 0x298A, 0x298C, 0x298C, 0x298E, 0x298E,
  0x2990, 0x2990, 0x2992, 0x2992, 0x2994, 0x2994, 0x2996, 0x2996, 0x2998, 0x2998, 0x29D9, 0x29D9,
  0x29DB, 0x29DB, 0x29FD, 0x29FD, 0x2E23, 0x2E23, 0x2E25, 0x2E25, 0x2E27, 0x2E27, 0x2E29, 0x2E29,
  0x3009, 0x3009, 0x300B, 0x300B, 0x300D, 0x300D, 0x300F, 0x300F, 0x3011, 0x3011, 0x3015, 0x3015,
  0x3017, 0x3017, 0x3019, 0x3019, 0x301B, 0x301B, 0x301E, 0x301F, 0xFD3E, 0xFD3E, 0xFE18, 0xFE18,
  0xFE36, 0xFE36, 0xFE38, 0xFE38, 0xFE3A, 0xFE3A, 0xFE3C, 0xFE3C, 0xFE3E, 0xFE3E, 0xFE40, 0xFE40,
  0xFE42, 0xFE42, 0xFE44, 0xFE44, 0xFE48, 0xFE48, 0xFE5A, 0xFE5A, 0xFE5C, 0xFE5C, 0xFE5E, 0xFE5E,
  0xFF09, 0xFF09, 0xFF3D, 0xFF3D, 0xFF5D, 0xFF5D, 0xFF60, 0xFF60, 0xFF63, 0xFF63]

/-- The ends of the ranges listed under Pi, initial punctuation. -/
def initialPunctuation : List Nat := [
  0xAB, 0xAB, 0x2018, 0x2018, 0x201B, 0x201C, 0x201F, 0x201F, 0x2039, 0x2039, 0x2E02, 0x2E02,
  0x2E04, 0x2E04, 0x2E09, 0x2E09, 0x2E0C, 0x2E0C, 0x2E1C, 0x2E1C, 0x2E20, 0x2E20]

/-- The ends of the ranges listed under Pf, final punctuation. -/
def finalPunctuation : List Nat := [
  0xBB, 0xBB, 0x2019, 0x2019, 0x201D, 0x201D, 0x203A, 0x203A, 0x2E03, 0x2E03, 0x2E05, 0x2E05,
  0x2E0A, 0x2E0A, 0x2E0D, 0x2E0D, 0x2E1D, 0x2E1D, 0x2E21, 0x2E21]

/-- The ends of the ranges listed under Po, other punctuation. -/
def otherPunctuation : List Nat := [
  0x21, 0x21, 0x22, 0x22, 0x23, 0x23, 0x25, 0x25, 0x26, 0x26, 0x27, 0x27, 0x2A, 0x2A, 0x2C, 0x2C,
  0x2E, 0x2E, 0x2F, 0x2F, 0x3A, 0x3B, 0x3F, 0x40, 0x5C, 0x5C, 0xA1, 0xA1, 0xA7, 0xA7, 0xB6, 0xB7,
  0xBF, 0xBF, 0x37E, 0x37E, 0x387, 0x387, 0x55A, 0x55F, 0x589, 0x589, 0x5C0, 0x5C0, 0x5C3, 0x5C3,
  0x5C6, 0x5C6, 0x5F3, 0x5F4, 0x609, 0x60A, 0x60C, 0x60D, 0x61B, 0x61B, 0x61E, 0x61F, 0x66A,
  0x66D, 0x6D4, 0x6D4, 0x700, 0x70D, 0x7F7, 0x7F9, 0x830, 0x83E, 0x85E, 0x85E, 0x964, 0x965,
  0x970, 0x970, 0x9FD, 0x9FD, 0xA76, 0xA76, 0xAF0, 0xAF0, 0xC77, 0xC77, 0xC84, 0xC84, 0xDF4,
  0xDF4, 0xE4F, 0xE4F, 0xE5A, 0xE5B, 0xF04, 0xF12, 0xF14, 0xF14, 0xF85, 0xF85, 0xFD0, 0xFD4,
  0xFD9, 0xFDA, 0x104A, 0x104F, 0x10FB, 0x10FB, 0x1360, 0x1368, 0x166E, 0x166E, 0x16EB, 0x16ED,
  0x1735, 0x1736, 0x17D4, 0x17D6, 0x17D8, 0x17DA, 0x1800, 0x1805, 0x1807, 0x180A, 0x1944, 0x1945,
  0x1A1E, 0x1A1F, 0x1AA0, 0x1AA6, 0x1AA8, 0x1AAD, 0x1B5A, 0x1B60, 0x1BFC, 0x1BFF, 0x1C3B, 0x1C3F,
  0x1C7E, 0x1C7F, 0x1CC0, 0x1CC7, 0x1CD3, 0x1CD3, 0x2016, 0x2017, 0x2020, 0x2027, 0x2030, 0x2038,
  0x203B, 0x203E, 0x2041, 0x2043, 0x2047, 0x2051, 0x2053, 0x2053, 0x2055, 0x205E, 0x2CF9, 0x2CFC,
  0x2CFE, 0x2CFF, 0x2D70, 0x2D70, 0x2E00, 0x2E01, 0x2E06, 0x2E08, 0x2E0B, 0x2E0B, 0x2E0E, 0x2E16,
  0x2E18, 0x2E19, 0x2E1B, 0x2E1B, 0x2E1E, 0x2E1F, 0x2E2A, 0x2E2E, 0x2E30, 0x2E39, 0x2E3C, 0x2E3F,
  0x2E41, 0x2E41, 0x2E43, 0x2E4F, 0x3001, 0x3003, 0x303D, 0x303D, 0x30FB, 0x30FB, 0xA4FE, 0xA4FF,
  0xA60D, 0xA60F, 0xA673, 0xA673, 0xA67E, 0xA67E, 0xA6F2, 0xA6F7, 0xA874, 0xA877, 0xA8CE, 0xA8CF,
  0xA8F8, 0xA8FA, 0xA8FC, 0xA8FC, 0xA92E, 0xA92F, 0xA95F, 0xA95F, 0xA9C1, 0xA9CD, 0xA9DE, 0xA9DF,
  0xAA5C, 0xAA5F, 0xAADE, 0xAADF, 0xAAF0, 0xAAF1, 0xABEB, 0xABEB, 0xFE10, 0xFE16, 0xFE19, 0xFE19,
  0xFE30, 0xFE30, 0xFE45, 0xFE46, 0xFE49, 0xFE4C, 0xFE50, 0xFE52, 0xFE54, 0xFE57, 0xFE5F, 0xFE61,
  0xFE68, 0xFE68, 0xFE6A, 0xFE6B, 0xFF01, 0xFF03, 0xFF05, 0xFF07, 0xFF0A, 0xFF0A, 0xFF0C, 0xFF0C,
  0xFF0E, 0xFF0F, 0xFF1A, 0xFF1B, 0xFF1F, 0xFF20, 0xFF3C, 0xFF3C, 0xFF61, 0xFF61, 0xFF64, 0xFF65]

/-- The ends of the ranges listed under Sm, math symbol. -/
def mathSymbol : List Nat := [
  0x2B, 0x2B, 0x3C, 0x3E, 0x7C, 0x7C, 0x7E, 0x7E, 0xAC, 0xAC, 0xB1, 0xB1, 0xD7, 0xD7, 0xF7, 0xF7,
  0x3F6, 0x3F6, 0x606, 0x608, 0x2044, 0x2044, 0x2052, 0x2052, 0x207A, 0x207C, 0x208A, 0x208C,
  0x2118, 0x2118, 0x2140, 0x2144, 0x214B, 0x214B, 0x2190, 0x2194, 0x219A, 0x219B, 0x21A0, 0x21A0,
  0x21A3, 0x21A3, 0x21A6, 0x21A6, 0x21AE, 0x21AE, 0x21CE, 0x21CF, 0x21D2, 0x21D2, 0x21D4, 0x21D4,
  0x21F4, 0x22FF, 0x2320, 0x2321, 0x237C, 0x237C, 0x239B, 0x23B3, 0x23DC, 0x23E1, 0x25B7, 0x25B7,
  0x25C1, 0x25C1, 0x25F8, 0x25FF, 0x266F, 0x266F, 0x27C0, 0x27C4, 0x27C7, 0x27E5, 0x27F0, 0x27FF,
  0x2900, 0x2982, 0x2999, 0x29D7, 0x29DC, 0x29FB, 0x29FE, 0x2AFF, 0x2B30, 0x2B44, 0x2B47, 0x2B4C,
  0xFB29, 0xFB29, 0xFE62, 0xFE62, 0xFE64, 0xFE66, 0xFF0B, 0xFF0B, 0xFF1C, 0xFF1E, 0xFF5C, 0xFF5C,
  0xFF5E, 0xFF5E, 0xFFE2, 0xFFE2, 0xFFE9, 0xFFEC]

/-- The ends of the ranges listed under Sc, currency symbol. -/
def currencySymbol : List Nat := [
  0x24, 0x24, 0xA2, 0xA5, 0x58F, 0x58F, 0x60B, 0x60B, 0x7FE, 0x7FF, 0x9F2, 0x9F3, 0x9FB, 0x9FB,
  0xAF1, 0xAF1, 0xBF9, 0xBF9, 0xE3F, 0xE3F, 0x17DB, 0x17DB, 0x20A0, 0x20BF, 0xA838, 0xA838,
  0xFDFC, 0xFDFC, 0xFE69, 0xFE69, 0xFF04, 0xFF04, 0xFFE0, 0xFFE1, 0xFFE5, 0xFFE6]

/-- The ends of the ranges listed under Sk, modifier symbol. -/
def modifierSymbol : List Nat := [
  0x5E, 0x5E, 0x60, 0x60, 0xA8, 0xA8, 0xAF, 0xAF, 0xB4, 0xB4, 0xB8, 0xB8, 0x2C2, 0x2C5, 0x2D2,
  0x2DF, 0x2E5, 0x2EB, 0x2ED, 0x2ED, 0x2EF, 0x2FF, 0x375, 0x375, 0x384, 0x385, 0x1FBD, 0x1FBD,
  0x1FBF, 0x1FC1, 0x1FCD, 0x1FCF, 0x1FDD, 0x1FDF, 0x1FED, 0x1FEF, 0x1FFD, 0x1FFE, 0x309B, 0x309C,
  0xA700, 0xA716, 0xA720, 0xA721, 0xA789, 0xA78A, 0xAB5B, 0xAB5B, 0xFBB2, 0xFBC1, 0xFF3E, 0xFF3E,
  0xFF40, 0xFF40, 0xFFE3, 0xFFE3]

/-- The ends of the ranges listed under So, other symbol. -/
def otherSymbol : List Nat := [
  0xA6, 0xA6, 0xA9, 0xA9, 0xAE, 0xAE, 0xB0, 0xB0, 0x482, 0x482, 0x58D, 0x58E, 0x60E, 0x60F,
  0x6DE, 0x6DE, 0x6E9, 0x6E9, 0x6FD, 0x6FE, 0x7F6, 0x7F6, 0x9FA, 0x9FA, 0xB70, 0xB70, 0xBF3,
  0xBF8, 0xBFA, 0xBFA, 0xC7F, 0xC7F, 0xD4F, 0xD4F, 0xD79, 0xD79, 0xF01, 0xF03, 0xF13, 0xF13,
  0xF15, 0xF17, 0xF1A, 0xF1F, 0xF34, 0xF34, 0xF36, 0xF36, 0xF38, 0xF38, 0xFBE, 0xFC5, 0xFC7,
  0xFCC, 0xFCE, 0xFCF, 0xFD5, 0xFD8, 0x109E, 0x109F, 0x1390, 0x1399, 0x1940, 0x1940, 0x19DE,
  0x19FF, 0x1B61, 0x1B6A, 0x1B74, 0x1B7C, 0x2100, 0x2101, 0x2103, 0x2106, 0x2108, 0x2109, 0x2114,
  0x2114, 0x2116, 0x2117, 0x211E, 0x2123, 0x2125, 0x2125, 0x2127, 0x2127, 0x2129, 0x2129, 0x212E,
  0x212E, 0x213A, 0x213B, 0x214A, 0x214A, 0x214C, 0x214D, 0x214F, 0x214F, 0x218A, 0x218B, 0x2195,
  0x2199, 0x219C, 0x219F, 0x21A1, 0x21A2, 0x21A4, 0x21A5, 0x21A7, 0x21AD, 0x21AF, 0x21CD, 0x21D0,
  0x21D1, 0x21D3, 0x21D3, 0x21D5, 0x21F3, 0x2300, 0x2307, 0x230C, 0x231F, 0x2322, 0x2328, 0x232B,
  0x237B, 0x237D, 0x239A, 0x23B4, 0x23DB, 0x23E2, 0x2426, 0x2440, 0x244A, 0x249C, 0x24E9, 0x2500,
  0x25B6, 0x25B8, 0x25C0, 0x25C2, 0x25F7, 0x2600, 0x266E, 0x2670, 0x2767, 0x2794, 0x27BF, 0x2800,
  0x28FF, 0x2B00, 0x2B2F, 0x2B45, 0x2B46, 0x2B4D, 0x2B73, 0x2B76, 0x2B95, 0x2B98, 0x2BB9, 0x2BBD,
  0x2BC8, 0x2BCA, 0x2BD1, 0x2BEC, 0x2BEF, 0x2CE5, 0x2CEA, 0x2E80, 0x2E99, 0x2E9B, 0x2EF3, 0x2F00,
  0x2FD5, 0x2FF0, 0x2FFB, 0x3004, 0x3004, 0x3012, 0x3013, 0x3020, 0x3020, 0x3036, 0x3037, 0x303E,
  0x303F, 0x3190, 0x3191, 0x3196, 0x319F, 0x31C0, 0x31E3, 0x3200, 0x321E, 0x322A, 0x3247, 0x3250,
  0x3250, 0x3260, 0x327F, 0x328A, 0x32B0, 0x32C0, 0x32FE, 0x3300, 0x33FF, 0x4DC0, 0x4DFF, 0xA490,
  0xA4C6, 0xA828, 0xA82B, 0xA836, 0xA837, 0xA839, 0xA839, 0xAA77, 0xAA79, 0xFDFD, 0xFDFD, 0xFFE4,
  0xFFE4, 0xFFE8, 0xFFE8, 0xFFED, 0xFFEE, 0xFFFC, 0xFFFD, 0x1D100, 0x1D126, 0x1D129, 0x1D164,
  0x1D16A, 0x1D16C, 0x1D183, 0x1D184, 0x1D18C, 0x1D1A9, 0x1D1AE, 0x1D1FF, 0x1D200, 0x1D245]

/-- All listings in the order of the categories. -/
def all : List (List Nat) := [
  uppercaseLetter, lowercaseLetter, titlecaseLetter, modifierLetter, otherLetter,
  nonspacingMark, spacingMark, enclosingMark, decimalNumber, letterNumber, otherNumber,
  spaceSeparator, lineSeparator, paragraphSeparator, control, format, surrogate, privateUse,
  connectorPunctuation, dashPunctuation, openPunctuation, closePunctuation, initialPunctuation,
  finalPunctuation, otherPunctuation, mathSymbol, currencySymbol, modifierSymbol, otherSymbol]

end FiberLex.Category.Listing
