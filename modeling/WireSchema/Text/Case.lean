/-!
# Simple case mapping

One character maps to one character: the simple mappings of Unicode 17, which leave alone the
characters whose full mapping is a string (`ß` stays `ß`).  Each table row is a start, a count, a
stride and a displacement, so that both blocks (`a`–`z`) and alternating scripts (`Āā Ăă …`) take
one row.

`toUpper` and `toLower` are total; a character outside every row maps to itself.
-/

namespace WireSchema.Text

/-- Whether `n` is one of the `count` code points `start, start + step, …`. -/
def inStride (start count step n : Nat) : Bool :=
  decide (start ≤ n ∧ n < start + count * step) && (n - start) % step == 0

/-- Rows `(start, count, step, displacement)` of the upper-case mapping. -/
def upperRows : List (Nat × Nat × Nat × Int) :=
  [(97, 26, 1, -32), (181, 1, 1, 743), (224, 23, 1, -32), (248, 7, 1, -32), (255, 1, 1, 121),
   (257, 24, 2, -1), (305, 1, 1, -232), (307, 3, 2, -1), (314, 8, 2, -1), (331, 23, 2, -1),
   (378, 3, 2, -1), (383, 1, 1, -300), (384, 1, 1, 195), (387, 2, 2, -1), (392, 1, 1, -1),
   (396, 1, 1, -1), (402, 1, 1, -1), (405, 1, 1, 97), (409, 1, 1, -1), (410, 1, 1, 163), (411,
   1, 1, 42561), (414, 1, 1, 130), (417, 3, 2, -1), (424, 1, 1, -1), (429, 1, 1, -1), (432, 1,
   1, -1), (436, 2, 2, -1), (441, 1, 1, -1), (445, 1, 1, -1), (447, 1, 1, 56), (453, 1, 1, -1),
   (454, 1, 1, -2), (456, 1, 1, -1), (457, 1, 1, -2), (459, 1, 1, -1), (460, 1, 1, -2), (462,
   8, 2, -1), (477, 1, 1, -79), (479, 9, 2, -1), (498, 1, 1, -1), (499, 1, 1, -2), (501, 1, 1,
   -1), (505, 20, 2, -1), (547, 9, 2, -1), (572, 1, 1, -1), (575, 2, 1, 10815), (578, 1, 1,
   -1), (583, 5, 2, -1), (592, 1, 1, 10783), (593, 1, 1, 10780), (594, 1, 1, 10782), (595, 1,
   1, -210), (596, 1, 1, -206), (598, 2, 1, -205), (601, 1, 1, -202), (603, 1, 1, -203), (604,
   1, 1, 42319), (608, 1, 1, -205), (609, 1, 1, 42315), (611, 1, 1, -207), (612, 1, 1, 42343),
   (613, 1, 1, 42280), (614, 1, 1, 42308), (616, 1, 1, -209), (617, 1, 1, -211), (618, 1, 1,
   42308), (619, 1, 1, 10743), (620, 1, 1, 42305), (623, 1, 1, -211), (625, 1, 1, 10749), (626,
   1, 1, -213), (629, 1, 1, -214), (637, 1, 1, 10727), (640, 1, 1, -218), (642, 1, 1, 42307),
   (643, 1, 1, -218), (647, 1, 1, 42282), (648, 1, 1, -218), (649, 1, 1, -69), (650, 2, 1,
   -217), (652, 1, 1, -71), (658, 1, 1, -219), (669, 1, 1, 42261), (670, 1, 1, 42258), (837, 1,
   1, 84), (881, 2, 2, -1), (887, 1, 1, -1), (891, 3, 1, 130), (940, 1, 1, -38), (941, 3, 1,
   -37), (945, 17, 1, -32), (962, 1, 1, -31), (963, 9, 1, -32), (972, 1, 1, -64), (973, 2, 1,
   -63), (976, 1, 1, -62), (977, 1, 1, -57), (981, 1, 1, -47), (982, 1, 1, -54), (983, 1, 1,
   -8), (985, 12, 2, -1), (1008, 1, 1, -86), (1009, 1, 1, -80), (1010, 1, 1, 7), (1011, 1, 1,
   -116), (1013, 1, 1, -96), (1016, 1, 1, -1), (1019, 1, 1, -1), (1072, 32, 1, -32), (1104, 16,
   1, -80), (1121, 17, 2, -1), (1163, 27, 2, -1), (1218, 7, 2, -1), (1231, 1, 1, -15), (1233,
   48, 2, -1), (1377, 38, 1, -48), (4304, 43, 1, 3008), (4349, 3, 1, 3008), (5112, 6, 1, -8),
   (7296, 1, 1, -6254), (7297, 1, 1, -6253), (7298, 1, 1, -6244), (7299, 2, 1, -6242), (7301,
   1, 1, -6243), (7302, 1, 1, -6236), (7303, 1, 1, -6181), (7304, 1, 1, 35266), (7306, 1, 1,
   -1), (7545, 1, 1, 35332), (7549, 1, 1, 3814), (7566, 1, 1, 35384), (7681, 75, 2, -1), (7835,
   1, 1, -59), (7841, 48, 2, -1), (7936, 8, 1, 8), (7952, 6, 1, 8), (7968, 8, 1, 8), (7984, 8,
   1, 8), (8000, 6, 1, 8), (8017, 4, 2, 8), (8032, 8, 1, 8), (8048, 2, 1, 74), (8050, 4, 1,
   86), (8054, 2, 1, 100), (8056, 2, 1, 128), (8058, 2, 1, 112), (8060, 2, 1, 126), (8064, 8,
   1, 8), (8080, 8, 1, 8), (8096, 8, 1, 8), (8112, 2, 1, 8), (8115, 1, 1, 9), (8126, 1, 1,
   -7205), (8131, 1, 1, 9), (8144, 2, 1, 8), (8160, 2, 1, 8), (8165, 1, 1, 7), (8179, 1, 1, 9),
   (8526, 1, 1, -28), (8560, 16, 1, -16), (8580, 1, 1, -1), (9424, 26, 1, -26), (11312, 48, 1,
   -48), (11361, 1, 1, -1), (11365, 1, 1, -10795), (11366, 1, 1, -10792), (11368, 3, 2, -1),
   (11379, 1, 1, -1), (11382, 1, 1, -1), (11393, 50, 2, -1), (11500, 2, 2, -1), (11507, 1, 1,
   -1), (11520, 38, 1, -7264), (11559, 1, 1, -7264), (11565, 1, 1, -7264), (42561, 23, 2, -1),
   (42625, 14, 2, -1), (42787, 7, 2, -1), (42803, 31, 2, -1), (42874, 2, 2, -1), (42879, 5, 2,
   -1), (42892, 1, 1, -1), (42897, 2, 2, -1), (42900, 1, 1, 48), (42903, 10, 2, -1), (42933, 8,
   2, -1), (42952, 2, 2, -1), (42957, 1, 1, -1), (42959, 1, 1, -1), (42961, 1, 1, -1), (42963,
   1, 1, -1), (42965, 1, 1, -1), (42967, 2, 2, -1), (42971, 1, 1, -1), (42998, 1, 1, -1),
   (43859, 1, 1, -928), (43888, 80, 1, -38864), (65345, 26, 1, -32), (66600, 40, 1, -40),
   (66776, 36, 1, -40), (66967, 11, 1, -39), (66979, 15, 1, -39), (66995, 7, 1, -39), (67003,
   2, 1, -39), (68800, 51, 1, -64), (68976, 22, 1, -32), (71872, 32, 1, -32), (93792, 32, 1,
   -32), (93883, 25, 1, -27), (125218, 34, 1, -34)]

/-- Rows `(start, count, step, displacement)` of the lower-case mapping. -/
def lowerRows : List (Nat × Nat × Nat × Int) :=
  [(65, 26, 1, 32), (192, 23, 1, 32), (216, 7, 1, 32), (256, 24, 2, 1), (304, 1, 1, -199),
   (306, 3, 2, 1), (313, 8, 2, 1), (330, 23, 2, 1), (376, 1, 1, -121), (377, 3, 2, 1), (385, 1,
   1, 210), (386, 2, 2, 1), (390, 1, 1, 206), (391, 1, 1, 1), (393, 2, 1, 205), (395, 1, 1, 1),
   (398, 1, 1, 79), (399, 1, 1, 202), (400, 1, 1, 203), (401, 1, 1, 1), (403, 1, 1, 205), (404,
   1, 1, 207), (406, 1, 1, 211), (407, 1, 1, 209), (408, 1, 1, 1), (412, 1, 1, 211), (413, 1,
   1, 213), (415, 1, 1, 214), (416, 3, 2, 1), (422, 1, 1, 218), (423, 1, 1, 1), (425, 1, 1,
   218), (428, 1, 1, 1), (430, 1, 1, 218), (431, 1, 1, 1), (433, 2, 1, 217), (435, 2, 2, 1),
   (439, 1, 1, 219), (440, 1, 1, 1), (444, 1, 1, 1), (452, 1, 1, 2), (453, 1, 1, 1), (455, 1,
   1, 2), (456, 1, 1, 1), (458, 1, 1, 2), (459, 9, 2, 1), (478, 9, 2, 1), (497, 1, 1, 2), (498,
   2, 2, 1), (502, 1, 1, -97), (503, 1, 1, -56), (504, 20, 2, 1), (544, 1, 1, -130), (546, 9,
   2, 1), (570, 1, 1, 10795), (571, 1, 1, 1), (573, 1, 1, -163), (574, 1, 1, 10792), (577, 1,
   1, 1), (579, 1, 1, -195), (580, 1, 1, 69), (581, 1, 1, 71), (582, 5, 2, 1), (880, 2, 2, 1),
   (886, 1, 1, 1), (895, 1, 1, 116), (902, 1, 1, 38), (904, 3, 1, 37), (908, 1, 1, 64), (910,
   2, 1, 63), (913, 17, 1, 32), (931, 9, 1, 32), (975, 1, 1, 8), (984, 12, 2, 1), (1012, 1, 1,
   -60), (1015, 1, 1, 1), (1017, 1, 1, -7), (1018, 1, 1, 1), (1021, 3, 1, -130), (1024, 16, 1,
   80), (1040, 32, 1, 32), (1120, 17, 2, 1), (1162, 27, 2, 1), (1216, 1, 1, 15), (1217, 7, 2,
   1), (1232, 48, 2, 1), (1329, 38, 1, 48), (4256, 38, 1, 7264), (4295, 1, 1, 7264), (4301, 1,
   1, 7264), (5024, 80, 1, 38864), (5104, 6, 1, 8), (7305, 1, 1, 1), (7312, 43, 1, -3008),
   (7357, 3, 1, -3008), (7680, 75, 2, 1), (7838, 1, 1, -7615), (7840, 48, 2, 1), (7944, 8, 1,
   -8), (7960, 6, 1, -8), (7976, 8, 1, -8), (7992, 8, 1, -8), (8008, 6, 1, -8), (8025, 4, 2,
   -8), (8040, 8, 1, -8), (8072, 8, 1, -8), (8088, 8, 1, -8), (8104, 8, 1, -8), (8120, 2, 1,
   -8), (8122, 2, 1, -74), (8124, 1, 1, -9), (8136, 4, 1, -86), (8140, 1, 1, -9), (8152, 2, 1,
   -8), (8154, 2, 1, -100), (8168, 2, 1, -8), (8170, 2, 1, -112), (8172, 1, 1, -7), (8184, 2,
   1, -128), (8186, 2, 1, -126), (8188, 1, 1, -9), (8486, 1, 1, -7517), (8490, 1, 1, -8383),
   (8491, 1, 1, -8262), (8498, 1, 1, 28), (8544, 16, 1, 16), (8579, 1, 1, 1), (9398, 26, 1,
   26), (11264, 48, 1, 48), (11360, 1, 1, 1), (11362, 1, 1, -10743), (11363, 1, 1, -3814),
   (11364, 1, 1, -10727), (11367, 3, 2, 1), (11373, 1, 1, -10780), (11374, 1, 1, -10749),
   (11375, 1, 1, -10783), (11376, 1, 1, -10782), (11378, 1, 1, 1), (11381, 1, 1, 1), (11390, 2,
   1, -10815), (11392, 50, 2, 1), (11499, 2, 2, 1), (11506, 1, 1, 1), (42560, 23, 2, 1),
   (42624, 14, 2, 1), (42786, 7, 2, 1), (42802, 31, 2, 1), (42873, 2, 2, 1), (42877, 1, 1,
   -35332), (42878, 5, 2, 1), (42891, 1, 1, 1), (42893, 1, 1, -42280), (42896, 2, 2, 1),
   (42902, 10, 2, 1), (42922, 1, 1, -42308), (42923, 1, 1, -42319), (42924, 1, 1, -42315),
   (42925, 1, 1, -42305), (42926, 1, 1, -42308), (42928, 1, 1, -42258), (42929, 1, 1, -42282),
   (42930, 1, 1, -42261), (42931, 1, 1, 928), (42932, 8, 2, 1), (42948, 1, 1, -48), (42949, 1,
   1, -42307), (42950, 1, 1, -35384), (42951, 2, 2, 1), (42955, 1, 1, -42343), (42956, 1, 1,
   1), (42958, 1, 1, 1), (42960, 1, 1, 1), (42962, 1, 1, 1), (42964, 1, 1, 1), (42966, 2, 2,
   1), (42970, 1, 1, 1), (42972, 1, 1, -42561), (42997, 1, 1, 1), (65313, 26, 1, 32), (66560,
   40, 1, 40), (66736, 36, 1, 40), (66928, 11, 1, 39), (66940, 15, 1, 39), (66956, 7, 1, 39),
   (66964, 2, 1, 39), (68736, 51, 1, 64), (68944, 22, 1, 32), (71840, 32, 1, 32), (93760, 32,
   1, 32), (93856, 25, 1, 27), (125184, 34, 1, 34)]

/-- Rows `(start, count, step)` of the upper-case letters. -/
def upperLetters : List (Nat × Nat × Nat) :=
  [(65, 26, 1), (192, 23, 1), (216, 7, 1), (256, 28, 2), (313, 8, 2), (330, 24, 2), (377, 3,
   2), (385, 2, 1), (388, 2, 2), (391, 2, 2), (394, 2, 1), (398, 4, 1), (403, 2, 1), (406, 3,
   1), (412, 2, 1), (415, 2, 1), (418, 3, 2), (423, 2, 2), (428, 2, 2), (431, 2, 2), (434, 2,
   1), (437, 2, 2), (440, 1, 1), (444, 1, 1), (452, 1, 1), (455, 1, 1), (458, 1, 1), (461, 8,
   2), (478, 9, 2), (497, 1, 1), (500, 2, 2), (503, 2, 1), (506, 29, 2), (570, 2, 1), (573, 2,
   1), (577, 2, 2), (580, 3, 1), (584, 4, 2), (880, 2, 2), (886, 1, 1), (895, 1, 1), (902, 2,
   2), (905, 2, 1), (908, 2, 2), (911, 2, 2), (914, 16, 1), (931, 9, 1), (975, 1, 1), (978, 3,
   1), (984, 12, 2), (1012, 1, 1), (1015, 2, 2), (1018, 1, 1), (1021, 51, 1), (1120, 17, 2),
   (1162, 28, 2), (1217, 7, 2), (1232, 48, 2), (1329, 38, 1), (4256, 38, 1), (4295, 1, 1),
   (4301, 1, 1), (5024, 86, 1), (7305, 1, 1), (7312, 43, 1), (7357, 3, 1), (7680, 75, 2),
   (7838, 49, 2), (7944, 8, 1), (7960, 6, 1), (7976, 8, 1), (7992, 8, 1), (8008, 6, 1), (8025,
   4, 2), (8040, 8, 1), (8120, 4, 1), (8136, 4, 1), (8152, 4, 1), (8168, 5, 1), (8184, 4, 1),
   (8450, 1, 1), (8455, 1, 1), (8459, 3, 1), (8464, 3, 1), (8469, 1, 1), (8473, 5, 1), (8484,
   4, 2), (8491, 3, 1), (8496, 4, 1), (8510, 2, 1), (8517, 1, 1), (8579, 1, 1), (11264, 48, 1),
   (11360, 2, 2), (11363, 2, 1), (11367, 4, 2), (11374, 3, 1), (11378, 1, 1), (11381, 1, 1),
   (11390, 3, 1), (11394, 49, 2), (11499, 2, 2), (11506, 1, 1), (42560, 23, 2), (42624, 14, 2),
   (42786, 7, 2), (42802, 31, 2), (42873, 3, 2), (42878, 5, 2), (42891, 2, 2), (42896, 2, 2),
   (42902, 11, 2), (42923, 4, 1), (42928, 5, 1), (42934, 8, 2), (42949, 3, 1), (42953, 1, 1),
   (42955, 2, 1), (42958, 1, 1), (42960, 1, 1), (42962, 1, 1), (42964, 1, 1), (42966, 2, 2),
   (42970, 2, 2), (42997, 1, 1), (65313, 26, 1), (66560, 40, 1), (66736, 36, 1), (66928, 11,
   1), (66940, 15, 1), (66956, 7, 1), (66964, 2, 1), (68736, 51, 1), (68944, 22, 1), (71840,
   32, 1), (93760, 32, 1), (93856, 25, 1), (119808, 26, 1), (119860, 26, 1), (119912, 26, 1),
   (119964, 2, 2), (119967, 1, 1), (119970, 1, 1), (119973, 2, 1), (119977, 4, 1), (119982, 8,
   1), (120016, 26, 1), (120068, 2, 1), (120071, 4, 1), (120077, 8, 1), (120086, 7, 1),
   (120120, 2, 1), (120123, 4, 1), (120128, 5, 1), (120134, 1, 1), (120138, 7, 1), (120172, 26,
   1), (120224, 26, 1), (120276, 26, 1), (120328, 26, 1), (120380, 26, 1), (120432, 26, 1),
   (120488, 25, 1), (120546, 25, 1), (120604, 25, 1), (120662, 25, 1), (120720, 25, 1),
   (120778, 1, 1), (125184, 34, 1)]

/-- Rows `(start, count, step)` of the lower-case letters. -/
def lowerLetters : List (Nat × Nat × Nat) :=
  [(97, 26, 1), (181, 1, 1), (223, 24, 1), (248, 8, 1), (257, 28, 2), (312, 9, 2), (329, 24,
   2), (378, 3, 2), (383, 2, 1), (387, 2, 2), (392, 1, 1), (396, 2, 1), (402, 1, 1), (405, 1,
   1), (409, 3, 1), (414, 1, 1), (417, 3, 2), (424, 2, 2), (427, 2, 2), (432, 1, 1), (436, 2,
   2), (441, 2, 1), (445, 3, 1), (454, 1, 1), (457, 1, 1), (460, 9, 2), (477, 10, 2), (496, 1,
   1), (499, 2, 2), (505, 30, 2), (564, 6, 1), (572, 1, 1), (575, 2, 1), (578, 1, 1), (583, 5,
   2), (592, 68, 1), (661, 27, 1), (881, 2, 2), (887, 1, 1), (891, 3, 1), (912, 1, 1), (940,
   35, 1), (976, 2, 1), (981, 3, 1), (985, 12, 2), (1008, 4, 1), (1013, 1, 1), (1016, 1, 1),
   (1019, 2, 1), (1072, 48, 1), (1121, 17, 2), (1163, 27, 2), (1218, 7, 2), (1231, 49, 2),
   (1376, 41, 1), (4304, 43, 1), (4349, 3, 1), (5112, 6, 1), (7296, 9, 1), (7306, 1, 1), (7424,
   44, 1), (7531, 13, 1), (7545, 34, 1), (7681, 75, 2), (7830, 8, 1), (7839, 49, 2), (7936, 8,
   1), (7952, 6, 1), (7968, 8, 1), (7984, 8, 1), (8000, 6, 1), (8016, 8, 1), (8032, 8, 1),
   (8048, 14, 1), (8064, 8, 1), (8080, 8, 1), (8096, 8, 1), (8112, 5, 1), (8118, 2, 1), (8126,
   1, 1), (8130, 3, 1), (8134, 2, 1), (8144, 4, 1), (8150, 2, 1), (8160, 8, 1), (8178, 3, 1),
   (8182, 2, 1), (8458, 1, 1), (8462, 2, 1), (8467, 1, 1), (8495, 1, 1), (8500, 1, 1), (8505,
   1, 1), (8508, 2, 1), (8518, 4, 1), (8526, 1, 1), (8580, 1, 1), (11312, 48, 1), (11361, 1,
   1), (11365, 2, 1), (11368, 3, 2), (11377, 2, 2), (11380, 2, 2), (11383, 5, 1), (11393, 50,
   2), (11492, 1, 1), (11500, 2, 2), (11507, 1, 1), (11520, 38, 1), (11559, 1, 1), (11565, 1,
   1), (42561, 23, 2), (42625, 14, 2), (42787, 7, 2), (42800, 2, 1), (42803, 32, 2), (42866, 7,
   1), (42874, 2, 2), (42879, 5, 2), (42892, 2, 2), (42897, 2, 2), (42900, 2, 1), (42903, 10,
   2), (42927, 1, 1), (42933, 8, 2), (42952, 2, 2), (42957, 2, 2), (42961, 5, 2), (42971, 1,
   1), (42998, 1, 1), (43002, 1, 1), (43824, 43, 1), (43872, 9, 1), (43888, 80, 1), (64256, 7,
   1), (64275, 5, 1), (65345, 26, 1), (66600, 40, 1), (66776, 36, 1), (66967, 11, 1), (66979,
   15, 1), (66995, 7, 1), (67003, 2, 1), (68800, 51, 1), (68976, 22, 1), (71872, 32, 1),
   (93792, 32, 1), (93883, 25, 1), (119834, 26, 1), (119886, 7, 1), (119894, 18, 1), (119938,
   26, 1), (119990, 4, 1), (119995, 2, 2), (119998, 6, 1), (120005, 11, 1), (120042, 26, 1),
   (120094, 26, 1), (120146, 26, 1), (120198, 26, 1), (120250, 26, 1), (120302, 26, 1),
   (120354, 26, 1), (120406, 26, 1), (120458, 28, 1), (120514, 25, 1), (120540, 6, 1), (120572,
   25, 1), (120598, 6, 1), (120630, 25, 1), (120656, 6, 1), (120688, 25, 1), (120714, 6, 1),
   (120746, 25, 1), (120772, 6, 1), (120779, 1, 1), (122624, 10, 1), (122635, 20, 1), (122661,
   6, 1), (125218, 34, 1)]

/-- The image of a character under a table of rows. -/
def mapRows (rows : List (Nat × Nat × Nat × Int)) (c : Char) : Char :=
  match rows.find? fun (start, count, step, _) => inStride start count step c.toNat with
  | some (_, _, _, shift) => Char.ofNat (Int.toNat (c.toNat + shift))
  | none => c

/-- The simple upper-case image of a character. -/
def toUpper (c : Char) : Char :=
  if c.toNat < 128 then c.toUpper else mapRows upperRows c

/-- The simple lower-case image of a character. -/
def toLower (c : Char) : Char :=
  if c.toNat < 128 then c.toLower else mapRows lowerRows c

/-- An upper-case letter; a title-case digraph is not one. -/
def isUpper (c : Char) : Bool :=
  if c.toNat < 128 then c.isUpper
  else upperLetters.any fun (start, count, step) => inStride start count step c.toNat

/-- A lower-case letter. -/
def isLower (c : Char) : Bool :=
  if c.toNat < 128 then c.isLower
  else lowerLetters.any fun (start, count, step) => inStride start count step c.toNat

/-- A text with every character lower-cased. -/
def lowerCase (s : String) : String := s.map toLower

end WireSchema.Text
