/-!
# Letter case of characters

The case mappings of Unicode 17 for characters outside ASCII, and the two properties that the lower
case of a final sigma depends on.
-/

namespace DeviceForge.Text

def lowerRuns : List (Nat × Nat × Nat × Nat) :=
  [(192, 214, 1, 224), (216, 222, 1, 248), (256, 302, 2, 257), (306, 310, 2, 307), (313, 327, 2, 314),
    (330, 374, 2, 331), (376, 376, 1, 255), (377, 381, 2, 378), (385, 385, 1, 595), (386, 388, 2, 387),
    (390, 390, 1, 596), (391, 391, 1, 392), (393, 394, 1, 598), (395, 395, 1, 396), (398, 398, 1, 477),
    (399, 399, 1, 601), (400, 400, 1, 603), (401, 401, 1, 402), (403, 403, 1, 608), (404, 404, 1, 611),
    (406, 406, 1, 617), (407, 407, 1, 616), (408, 408, 1, 409), (412, 412, 1, 623), (413, 413, 1, 626),
    (415, 415, 1, 629), (416, 420, 2, 417), (422, 422, 1, 640), (423, 423, 1, 424), (425, 425, 1, 643),
    (428, 428, 1, 429), (430, 430, 1, 648), (431, 431, 1, 432), (433, 434, 1, 650), (435, 437, 2, 436),
    (439, 439, 1, 658), (440, 440, 1, 441), (444, 444, 1, 445), (452, 452, 1, 454), (453, 453, 1, 454),
    (455, 455, 1, 457), (456, 456, 1, 457), (458, 458, 1, 460), (459, 475, 2, 460), (478, 494, 2, 479),
    (497, 497, 1, 499), (498, 500, 2, 499), (502, 502, 1, 405), (503, 503, 1, 447), (504, 542, 2, 505),
    (544, 544, 1, 414), (546, 562, 2, 547), (570, 570, 1, 11365), (571, 571, 1, 572), (573, 573, 1, 410),
    (574, 574, 1, 11366), (577, 577, 1, 578), (579, 579, 1, 384), (580, 580, 1, 649), (581, 581, 1, 652),
    (582, 590, 2, 583), (880, 882, 2, 881), (886, 886, 1, 887), (895, 895, 1, 1011), (902, 902, 1, 940),
    (904, 906, 1, 941), (908, 908, 1, 972), (910, 911, 1, 973), (913, 929, 1, 945), (931, 939, 1, 963),
    (975, 975, 1, 983), (984, 1006, 2, 985), (1012, 1012, 1, 952), (1015, 1015, 1, 1016), (1017, 1017, 1, 1010),
    (1018, 1018, 1, 1019), (1021, 1023, 1, 891), (1024, 1039, 1, 1104), (1040, 1071, 1, 1072), (1120, 1152, 2, 1121),
    (1162, 1214, 2, 1163), (1216, 1216, 1, 1231), (1217, 1229, 2, 1218), (1232, 1326, 2, 1233), (1329, 1366, 1, 1377),
    (4256, 4293, 1, 11520), (4295, 4295, 1, 11559), (4301, 4301, 1, 11565), (5024, 5103, 1, 43888),
    (5104, 5109, 1, 5112), (7305, 7305, 1, 7306), (7312, 7354, 1, 4304), (7357, 7359, 1, 4349), (7680, 7828, 2, 7681),
    (7838, 7838, 1, 223), (7840, 7934, 2, 7841), (7944, 7951, 1, 7936), (7960, 7965, 1, 7952), (7976, 7983, 1, 7968),
    (7992, 7999, 1, 7984), (8008, 8013, 1, 8000), (8025, 8031, 2, 8017), (8040, 8047, 1, 8032), (8072, 8079, 1, 8064),
    (8088, 8095, 1, 8080), (8104, 8111, 1, 8096), (8120, 8121, 1, 8112), (8122, 8123, 1, 8048), (8124, 8124, 1, 8115),
    (8136, 8139, 1, 8050), (8140, 8140, 1, 8131), (8152, 8153, 1, 8144), (8154, 8155, 1, 8054), (8168, 8169, 1, 8160),
    (8170, 8171, 1, 8058), (8172, 8172, 1, 8165), (8184, 8185, 1, 8056), (8186, 8187, 1, 8060), (8188, 8188, 1, 8179),
    (8486, 8486, 1, 969), (8490, 8490, 1, 107), (8491, 8491, 1, 229), (8498, 8498, 1, 8526), (8544, 8559, 1, 8560),
    (8579, 8579, 1, 8580), (9398, 9423, 1, 9424), (11264, 11311, 1, 11312), (11360, 11360, 1, 11361),
    (11362, 11362, 1, 619), (11363, 11363, 1, 7549), (11364, 11364, 1, 637), (11367, 11371, 2, 11368),
    (11373, 11373, 1, 593), (11374, 11374, 1, 625), (11375, 11375, 1, 592), (11376, 11376, 1, 594),
    (11378, 11378, 1, 11379), (11381, 11381, 1, 11382), (11390, 11391, 1, 575), (11392, 11490, 2, 11393),
    (11499, 11501, 2, 11500), (11506, 11506, 1, 11507), (42560, 42604, 2, 42561), (42624, 42650, 2, 42625),
    (42786, 42798, 2, 42787), (42802, 42862, 2, 42803), (42873, 42875, 2, 42874), (42877, 42877, 1, 7545),
    (42878, 42886, 2, 42879), (42891, 42891, 1, 42892), (42893, 42893, 1, 613), (42896, 42898, 2, 42897),
    (42902, 42920, 2, 42903), (42922, 42922, 1, 614), (42923, 42923, 1, 604), (42924, 42924, 1, 609),
    (42925, 42925, 1, 620), (42926, 42926, 1, 618), (42928, 42928, 1, 670), (42929, 42929, 1, 647),
    (42930, 42930, 1, 669), (42931, 42931, 1, 43859), (42932, 42946, 2, 42933), (42948, 42948, 1, 42900),
    (42949, 42949, 1, 642), (42950, 42950, 1, 7566), (42951, 42953, 2, 42952), (42955, 42955, 1, 612),
    (42956, 42970, 2, 42957), (42972, 42972, 1, 411), (42997, 42997, 1, 42998), (65313, 65338, 1, 65345),
    (66560, 66599, 1, 66600), (66736, 66771, 1, 66776), (66928, 66938, 1, 66967), (66940, 66954, 1, 66979),
    (66956, 66962, 1, 66995), (66964, 66965, 1, 67003), (68736, 68786, 1, 68800), (68944, 68965, 1, 68976),
    (71840, 71871, 1, 71872), (93760, 93791, 1, 93792), (93856, 93880, 1, 93883), (125184, 125217, 1, 125218)]

/-- The characters with one character as their upper case: some that are the lower case of no character, and the lower
case of every character. -/
def upperRuns : List (Nat × Nat × Nat × Nat) :=
  [(181, 924), (305, 73), (383, 83), (453, 452), (456, 455), (459, 458), (498, 497), (837, 921), (962, 931),
    (976, 914), (977, 920), (981, 934), (982, 928), (1008, 922), (1009, 929), (1013, 917), (7296, 1042), (7297, 1044),
    (7298, 1054), (7299, 1057), (7300, 1058), (7301, 1058), (7302, 1066), (7303, 1122), (7304, 42570), (7835, 7776),
    (8126, 921)].map (fun (c, image) => (c, c, 1, image)) ++
  lowerRuns.map fun (first, last, step, image) => (image, image + (last - first), step, first)

def lowerExpansions : List (Nat × List Nat) :=
  [(304, [105, 775])]

def upperExpansions : List (Nat × List Nat) :=
  [(223, [83, 83]), (329, [700, 78]), (496, [74, 780]), (912, [921, 776, 769]), (944, [933, 776, 769]),
    (1415, [1333, 1362]), (7830, [72, 817]), (7831, [84, 776]), (7832, [87, 778]), (7833, [89, 778]), (7834, [65, 702]),
    (8016, [933, 787]), (8018, [933, 787, 768]), (8020, [933, 787, 769]), (8022, [933, 787, 834]), (8114, [8122, 921]),
    (8115, [913, 921]), (8116, [902, 921]), (8118, [913, 834]), (8119, [913, 834, 921]), (8124, [913, 921]),
    (8130, [8138, 921]), (8131, [919, 921]), (8132, [905, 921]), (8134, [919, 834]), (8135, [919, 834, 921]),
    (8140, [919, 921]), (8146, [921, 776, 768]), (8147, [921, 776, 769]), (8150, [921, 834]), (8151, [921, 776, 834]),
    (8162, [933, 776, 768]), (8163, [933, 776, 769]), (8164, [929, 787]), (8166, [933, 834]), (8167, [933, 776, 834]),
    (8178, [8186, 921]), (8179, [937, 921]), (8180, [911, 921]), (8182, [937, 834]), (8183, [937, 834, 921]),
    (8188, [937, 921]), (64256, [70, 70]), (64257, [70, 73]), (64258, [70, 76]), (64259, [70, 70, 73]),
    (64260, [70, 70, 76]), (64261, [83, 84]), (64262, [83, 84]), (64275, [1348, 1350]), (64276, [1348, 1333]),
    (64277, [1348, 1339]), (64278, [1358, 1350]), (64279, [1348, 1341])] ++
  -- Greek letters with a small iota below or behind them
  [(8064, 7944), (8072, 7944), (8080, 7976), (8088, 7976), (8096, 8040), (8104, 8040)].flatMap
    fun (first, image) => (List.range 8).map fun i => (first + i, [image + i, 921])

def casedRanges : List (Nat × Nat) :=
  [(65, 90), (97, 122), (192, 214), (216, 246), (248, 442), (444, 447), (452, 659), (662, 687), (880, 883), (886, 887),
    (891, 893), (904, 906), (910, 929), (931, 1013), (1015, 1153), (1162, 1327), (1329, 1366), (1376, 1416),
    (4256, 4293), (4304, 4346), (4349, 4351), (5024, 5109), (5112, 5117), (7296, 7306), (7312, 7354), (7357, 7359),
    (7424, 7467), (7531, 7543), (7545, 7578), (7680, 7957), (7960, 7965), (7968, 8005), (8008, 8013), (8016, 8023),
    (8031, 8061), (8064, 8116), (8118, 8124), (8130, 8132), (8134, 8140), (8144, 8147), (8150, 8155), (8160, 8172),
    (8178, 8180), (8182, 8188), (8458, 8467), (8473, 8477), (8490, 8493), (8495, 8500), (8508, 8511), (8517, 8521),
    (8544, 8575), (8579, 8580), (9398, 9449), (11264, 11387), (11390, 11492), (11499, 11502), (11506, 11507),
    (11520, 11557), (42560, 42605), (42624, 42651), (42786, 42863), (42865, 42887), (42891, 42894), (42896, 42972),
    (42997, 42998), (43824, 43866), (43872, 43880), (43888, 43967), (64256, 64262), (64275, 64279), (65313, 65338),
    (65345, 65370), (66560, 66639), (66736, 66771), (66776, 66811), (66928, 66938), (66940, 66954), (66956, 66962),
    (66964, 66965), (66967, 66977), (66979, 66993), (66995, 67001), (67003, 67004), (68736, 68786), (68800, 68850),
    (68944, 68965), (68976, 68997), (71840, 71903), (93760, 93823), (93856, 93880), (93883, 93907), (119808, 119892),
    (119894, 119964), (119966, 119967), (119973, 119974), (119977, 119980), (119982, 119993), (119997, 120003),
    (120005, 120069), (120071, 120074), (120077, 120084), (120086, 120092), (120094, 120121), (120123, 120126),
    (120128, 120132), (120138, 120144), (120146, 120485), (120488, 120512), (120514, 120538), (120540, 120570),
    (120572, 120596), (120598, 120628), (120630, 120654), (120656, 120686), (120688, 120712), (120714, 120744),
    (120746, 120770), (120772, 120779), (122624, 122633), (122635, 122654), (122661, 122666), (125184, 125251),
    (127280, 127305), (127312, 127337), (127344, 127369)] ++
  [170, 181, 186, 895, 902, 908, 4295, 4301, 8025, 8027, 8029, 8126, 8450, 8455, 8469, 8484, 8486, 8488, 8505, 8526,
    11559, 11565, 43002, 119970, 119995, 120134].map fun c => (c, c)

def ignorableRanges : List (Nat × Nat) :=
  [(183, 184), (688, 879), (884, 885), (900, 901), (1155, 1161), (1425, 1469), (1473, 1474), (1476, 1477),
    (1536, 1541), (1552, 1562), (1611, 1631), (1750, 1757), (1759, 1768), (1770, 1773), (1840, 1866), (1958, 1968),
    (2027, 2037), (2070, 2093), (2137, 2139), (2192, 2193), (2199, 2207), (2249, 2306), (2369, 2376), (2385, 2391),
    (2402, 2403), (2497, 2500), (2530, 2531), (2561, 2562), (2625, 2626), (2631, 2632), (2635, 2637), (2672, 2673),
    (2689, 2690), (2753, 2757), (2759, 2760), (2786, 2787), (2810, 2815), (2881, 2884), (2901, 2902), (2914, 2915),
    (3134, 3136), (3142, 3144), (3146, 3149), (3157, 3158), (3170, 3171), (3276, 3277), (3298, 3299), (3328, 3329),
    (3387, 3388), (3393, 3396), (3426, 3427), (3538, 3540), (3636, 3642), (3654, 3662), (3764, 3772), (3784, 3790),
    (3864, 3865), (3953, 3966), (3968, 3972), (3974, 3975), (3981, 3991), (3993, 4028), (4141, 4144), (4146, 4151),
    (4153, 4154), (4157, 4158), (4184, 4185), (4190, 4192), (4209, 4212), (4229, 4230), (4957, 4959), (5906, 5908),
    (5938, 5939), (5970, 5971), (6002, 6003), (6068, 6069), (6071, 6077), (6089, 6099), (6155, 6159), (6277, 6278),
    (6432, 6434), (6439, 6440), (6457, 6459), (6679, 6680), (6744, 6750), (6757, 6764), (6771, 6780), (6832, 6877),
    (6880, 6891), (6912, 6915), (6966, 6970), (7019, 7027), (7040, 7041), (7074, 7077), (7080, 7081), (7083, 7085),
    (7144, 7145), (7151, 7153), (7212, 7219), (7222, 7223), (7288, 7293), (7376, 7378), (7380, 7392), (7394, 7400),
    (7416, 7417), (7468, 7530), (7579, 7679), (8127, 8129), (8141, 8143), (8157, 8159), (8173, 8175), (8189, 8190),
    (8203, 8207), (8216, 8217), (8234, 8238), (8288, 8292), (8294, 8303), (8336, 8348), (8400, 8432), (11388, 11389),
    (11503, 11505), (11744, 11775), (12330, 12333), (12337, 12341), (12441, 12446), (12540, 12542), (42232, 42237),
    (42607, 42610), (42612, 42621), (42652, 42655), (42736, 42737), (42752, 42785), (42888, 42890), (42993, 42996),
    (43000, 43001), (43045, 43046), (43204, 43205), (43232, 43249), (43302, 43309), (43335, 43345), (43392, 43394),
    (43446, 43449), (43452, 43453), (43493, 43494), (43561, 43566), (43569, 43570), (43573, 43574), (43698, 43700),
    (43703, 43704), (43710, 43711), (43756, 43757), (43763, 43764), (43867, 43871), (43881, 43883), (64434, 64450),
    (65024, 65039), (65056, 65071), (65438, 65439), (65529, 65531), (66422, 66426), (67456, 67461), (67463, 67504),
    (67506, 67514), (68097, 68099), (68101, 68102), (68108, 68111), (68152, 68154), (68325, 68326), (68900, 68903),
    (68969, 68973), (69291, 69292), (69370, 69375), (69446, 69456), (69506, 69509), (69688, 69702), (69747, 69748),
    (69759, 69761), (69811, 69814), (69817, 69818), (69888, 69890), (69927, 69931), (69933, 69940), (70016, 70017),
    (70070, 70078), (70089, 70092), (70191, 70193), (70198, 70199), (70371, 70378), (70400, 70401), (70459, 70460),
    (70502, 70508), (70512, 70516), (70587, 70592), (70625, 70626), (70712, 70719), (70722, 70724), (70835, 70840),
    (70847, 70848), (70850, 70851), (71090, 71093), (71100, 71101), (71103, 71104), (71132, 71133), (71219, 71226),
    (71231, 71232), (71344, 71349), (71458, 71461), (71463, 71467), (71727, 71735), (71737, 71738), (71995, 71996),
    (72148, 72151), (72154, 72155), (72193, 72202), (72243, 72248), (72251, 72254), (72273, 72278), (72281, 72283),
    (72330, 72342), (72344, 72345), (72546, 72548), (72752, 72758), (72760, 72765), (72850, 72871), (72874, 72880),
    (72882, 72883), (72885, 72886), (73009, 73014), (73020, 73021), (73023, 73029), (73104, 73105), (73459, 73460),
    (73472, 73473), (73526, 73530), (78896, 78912), (78919, 78933), (90398, 90409), (90413, 90415), (92912, 92916),
    (92976, 92982), (92992, 92995), (93504, 93506), (93547, 93548), (94095, 94111), (94176, 94177), (94179, 94180),
    (94194, 94195), (110576, 110579), (110581, 110587), (110589, 110590), (113821, 113822), (113824, 113827),
    (118528, 118573), (118576, 118598), (119143, 119145), (119155, 119170), (119173, 119179), (119210, 119213),
    (119362, 119364), (121344, 121398), (121403, 121452), (121499, 121503), (121505, 121519), (122880, 122886),
    (122888, 122904), (122907, 122913), (122915, 122916), (122918, 122922), (122928, 122989), (123184, 123197),
    (123628, 123631), (124139, 124143), (124398, 124399), (124654, 124655), (125136, 125142), (125252, 125259),
    (127995, 127999), (917536, 917631), (917760, 917999)] ++
  [39, 46, 58, 94, 96, 168, 173, 175, 180, 890, 903, 1369, 1375, 1471, 1479, 1524, 1564, 1600, 1648, 1807, 1809, 2042,
    2045, 2184, 2362, 2364, 2381, 2417, 2433, 2492, 2509, 2558, 2620, 2641, 2677, 2748, 2765, 2817, 2876, 2879, 2893,
    2946, 3008, 3021, 3072, 3076, 3132, 3201, 3260, 3263, 3270, 3405, 3457, 3530, 3542, 3633, 3761, 3782, 3893, 3895,
    3897, 4038, 4226, 4237, 4253, 4348, 6086, 6103, 6109, 6211, 6313, 6450, 6683, 6742, 6752, 6754, 6783, 6823, 6964,
    6972, 6978, 7142, 7149, 7405, 7412, 7544, 8125, 8228, 8231, 8305, 8319, 11631, 11647, 11823, 12293, 12347, 40981,
    42508, 42623, 42864, 43010, 43014, 43019, 43052, 43263, 43443, 43471, 43587, 43596, 43632, 43644, 43696, 43713,
    43741, 43766, 44005, 44008, 44013, 64286, 65043, 65106, 65109, 65279, 65287, 65294, 65306, 65342, 65344, 65392,
    65507, 66045, 66272, 68159, 68942, 68975, 69317, 69633, 69744, 69821, 69826, 69837, 70003, 70095, 70196, 70206,
    70209, 70367, 70464, 70606, 70608, 70610, 70726, 70750, 70842, 71229, 71339, 71341, 71351, 71453, 71455, 71998,
    72003, 72160, 72263, 72544, 72550, 72767, 73018, 73031, 73109, 73111, 73177, 73536, 73538, 73562, 94031, 121461,
    121476, 123023, 123566, 124643, 124646, 124661, 124671, 917505].map fun c => (c, c)

end DeviceForge.Text
